import BuildComposition.Proofs.Script.Lockstep
import BuildComposition.Proofs.Script.RenumberedMemory

/-!
# Machines under other numbers

Machines in step may have different numbers for what is in their memories.  An action on one of them and
the action on the other numbers then do the same, and what they give is the same under these numbers.
Machines whose memories are one are the case in which the numbers are.

## Main definitions

* `Machine.Renumbers`: machines that are the same under other numbers
* `SteadyUnder`, `LockstepUnder`: relations between machines that are in step under other numbers
* `Renames`, `Repeats`: actions that do the same on such machines

## Main results

* `Renames.bind`, `Renames.tryCatch`, `Renames.iterate`: actions that are made of others
* `Renames.peek`, `Renames.closeFrom`, `Renames.captureAt`: the actions of the machine
* `Renames.mirrors`: actions that do the same under the same numbers
-/

namespace BuildComposition.Script

/-! ## Machines in step -/

section

variable {σ τ : Type}

/-- Memory, stack and captured variables of the second machine are those of the first one under other
numbers. -/
structure Machine.Renumbers (ρ : Renumbering) (s : Machine σ) (t : Machine τ) : Prop where
  memory : s.memory.Renumbers ρ t.memory
  stack : t.stack = s.stack.map (Value.renumber ρ)
  captured : t.captured = s.captured.map (Prod.map id ρ.cell)

/-- Machines in step under other numbers, as in `Steady`. -/
class SteadyUnder (ρ : outParam Renumbering) (R : Machine σ → Machine τ → Prop) : Prop where
  renumbers : ∀ {s t}, R s t → s.Renumbers ρ t
  moved : ∀ {s t}, R s t → ∀ memory memory' stack, memory.Renumbers ρ memory' →
    s.memory.SameFunctions memory → (s.memory.Linked → s.memory.SameFields memory) →
      R { s with memory, stack } { t with memory := memory', stack := stack.map (Value.renumber ρ) }
  sealed : ∀ {s t}, R s t → ∀ position id v, (position, id) ∈ s.captured →
    R { s with memory := s.memory.sealed id v }
      { t with memory := t.memory.sealed (ρ.cell id) (v.renumber ρ) }
  dropped : ∀ {s t}, R s t → ∀ captured, captured <:+ s.captured →
    R { s with captured } { t with captured := captured.map (Prod.map id ρ.cell) }

/-- Machines in step under other numbers, as in `Lockstep`. -/
class LockstepUnder (ρ : outParam Renumbering) (R : Machine σ → Machine τ → Prop) : Prop where
  renumbers : ∀ {s t}, R s t → s.Renumbers ρ t
  moved : ∀ {s t}, R s t → ∀ memory memory' stack captured, memory.Renumbers ρ memory' →
    (s.memory.Linked → s.memory.SameFields memory) →
      R { s with memory, stack, captured } { t with
        memory := memory'
        stack := stack.map (Value.renumber ρ)
        captured := captured.map (Prod.map id ρ.cell) }

variable {ρ : Renumbering} {R : Machine σ → Machine τ → Prop}

/-- Machines that are in step stay so as they are. -/
theorem LockstepUnder.same [LockstepUnder ρ R] {s : Machine σ} {t : Machine τ} (h : R s t) :
    t.stack = s.stack.map (Value.renumber ρ) ∧ t.captured = s.captured.map (Prod.map id ρ.cell) :=
  ⟨(LockstepUnder.renumbers h).stack, (LockstepUnder.renumbers h).captured⟩

instance [LockstepUnder ρ R] : SteadyUnder ρ R where
  renumbers := LockstepUnder.renumbers
  moved := by
    rintro ⟨m, stack, captured, _⟩ ⟨n, _, _, _⟩ hst memory memory' other hmemory _ hfields
    obtain ⟨rfl, rfl⟩ := LockstepUnder.same hst
    exact LockstepUnder.moved hst memory memory' other captured hmemory hfields
  sealed := by
    rintro ⟨m, stack, captured, _⟩ ⟨n, _, _, _⟩ hst _ id v _
    obtain ⟨rfl, rfl⟩ := LockstepUnder.same hst
    exact LockstepUnder.moved hst _ _ stack captured
      ((LockstepUnder.renumbers hst).memory.withCell id (.apart v)) fun h => h.withOthers rfl
  dropped := by
    rintro ⟨m, stack, captured, _⟩ ⟨n, _, _, _⟩ hst others _
    obtain ⟨rfl, rfl⟩ := LockstepUnder.same hst
    exact LockstepUnder.moved hst m n stack others (LockstepUnder.renumbers hst).memory fun h => h.sameFields

theorem map_renumber_one (vs : Array Value) : vs.map (Value.renumber 1) = vs := by
  rw [show Value.renumber 1 = id from funext Value.renumber_one, Array.map_id]

theorem map_cell_one (captured : List (Nat × Nat)) :
    captured.map (Prod.map id (1 : Renumbering).cell) = captured := List.map_id captured

theorem Machine.renumbers_one {s : Machine σ} {t : Machine τ}
    (h : s.memory = t.memory ∧ s.stack = t.stack ∧ s.captured = t.captured) : s.Renumbers 1 t :=
  ⟨Memory.renumbers_one_iff.mpr h.1.symm, by rw [map_renumber_one, h.2.1], by rw [map_cell_one, h.2.2]⟩

instance [Steady R] : SteadyUnder 1 R where
  renumbers hst := Machine.renumbers_one (Steady.same hst)
  moved hst memory memory' stack hmemory hfunctions hfields := by
    rw [Memory.renumbers_one_iff.mp hmemory, map_renumber_one]
    exact Steady.moved hst memory stack hfunctions hfields
  sealed hst position id v hmem := by
    rw [v.renumber_one]
    exact Steady.sealed hst position id v hmem
  dropped hst captured hcaptured := by
    rw [map_cell_one]
    exact Steady.dropped hst captured hcaptured

instance [Lockstep R] : LockstepUnder 1 R where
  renumbers hst := Machine.renumbers_one (Lockstep.same hst)
  moved hst memory memory' stack captured hmemory hfields := by
    rw [Memory.renumbers_one_iff.mp hmemory, map_renumber_one, map_cell_one]
    exact Lockstep.moved hst memory stack captured hfields

end

/-! ## Actions -/

section

variable {σ τ α α' β β' : Type}

/-- On machines in step, the second action does what the first one does under other numbers, and leaves them
in step. -/
def Renames (ρ : Renumbering) (R : Machine σ → Machine τ → Prop) (g : α → α') (x : Run σ α) (y : Run τ α') :
    Prop :=
  Simulates R (fun fault fault' => fault' = fault.renumber ρ) (fun a a' => a' = g a) x y

/-- What the actions give refers to nothing in memory, and is the same. -/
abbrev Repeats (ρ : Renumbering) (R : Machine σ → Machine τ → Prop) (x : Run σ α) (y : Run τ α) : Prop :=
  Renames ρ R (fun a => a) x y

variable {ρ : Renumbering} {R : Machine σ → Machine τ → Prop} {g : α → α'} {k : β → β'}

/-- Under the same numbers the two actions do the same. -/
theorem Renames.mirrors {g : α → α} {x : Run σ α} {y : Run τ α} (h : Renames 1 R g x y)
    (hg : ∀ a, g a = a) : Mirrors R x y := by
  intro s t hst
  have hends := h s t hst
  generalize x.run s = r, y.run t = r' at hends ⊢
  cases hends with
  | ok ha hst => exact .ok (ha.trans (hg _)).symm hst
  | error hfault hst => exact .error (hfault.trans (Fault.renumber_one _)).symm hst

theorem Mirrors.renames {g : α → α} {x : Run σ α} {y : Run τ α} (h : Mirrors R x y) (hg : ∀ a, g a = a) :
    Renames 1 R g x y := by
  intro s t hst
  have hends := h s t hst
  generalize x.run s = r, y.run t = r' at hends ⊢
  cases hends with
  | ok ha hst => exact .ok (ha.symm.trans (hg _).symm) hst
  | error hfault hst => exact .error (hfault.symm.trans (Fault.renumber_one _).symm) hst

namespace Renames

theorem pure {a : α} {a' : α'} (h : a' = g a) : Renames ρ R g (Pure.pure a : Run σ α) (Pure.pure a') :=
  Simulates.pure h

theorem bind {x : Run σ α} {y : Run τ α'} {f : α → Run σ β} {f' : α' → Run τ β'} (hx : Renames ρ R g x y)
    (hf : ∀ a, Renames ρ R k (f a) (f' (g a))) : Renames ρ R k (x >>= f) (y >>= f') :=
  Simulates.bind hx fun a _ h => h ▸ hf a

theorem map {x : Run σ α} {y : Run τ α'} {f : α → β} {f' : α' → β'} (hx : Renames ρ R g x y)
    (hf : ∀ a, f' (g a) = k (f a)) : Renames ρ R k (f <$> x) (f' <$> y) := by
  rw [map_eq_pure_bind, map_eq_pure_bind]
  exact bind hx fun a => pure (hf a)

theorem throw (fault : Fault) :
    Renames ρ R g (MonadExcept.throw fault : Run σ α) (MonadExcept.throw (fault.renumber ρ)) :=
  fun _ _ h => .error rfl h

theorem tryCatch {x : Run σ α} {y : Run τ α'} {handler : Fault → Run σ α} {handler' : Fault → Run τ α'}
    (hx : Renames ρ R g x y) (hhandler : ∀ fault, Renames ρ R g (handler fault) (handler' (fault.renumber ρ))) :
    Renames ρ R g (MonadExcept.tryCatch x handler) (MonadExcept.tryCatch y handler') := by
  intro s t hst
  have h := hx s t hst
  cases hrun : x.run s <;> cases hrun' : y.run t <;> rw [hrun, hrun'] at h <;> cases h
  case ok.ok.ok heq hst =>
    rw [run_tryCatch_of_ok hrun, run_tryCatch_of_ok hrun']
    exact .ok heq hst
  case error.error.error heq hst =>
    rw [run_tryCatch_of_error hrun, run_tryCatch_of_error hrun', heq]
    exact hhandler _ _ _ hst

/-- What the state is may matter to what is done next. -/
theorem get {f : Machine σ → Run σ α} {f' : Machine τ → Run τ α'}
    (h : ∀ s t, R s t → Renames ρ R g (f s) (f' t)) :
    Renames ρ R g (MonadState.get >>= f) (MonadState.get >>= f') :=
  fun s t hst => h s t hst s t hst

theorem iterate {step : α → Run σ (Sum α β)} {step' : α' → Run τ (Sum α' β')}
    (h : ∀ a, Renames ρ R (Sum.map g k) (step a) (step' (g a))) (fuel : Nat) (a : α) :
    Renames ρ R k (iterate step fuel a) (iterate step' fuel (g a)) := by
  induction fuel generalizing a with
  | zero => exact throw .exhausted
  | succ fuel ih =>
    refine bind (h a) fun next => ?_
    cases next with
    | inl a => exact ih a
    | inr b => exact pure rfl

theorem raise (sites : Sites) (message : String) :
    Renames ρ R g (raise sites message : Run σ α) (raise sites message) := throw (.thrown (.str _))

theorem orRaise (sites : Sites) (x : Except String α) :
    Renames ρ R g (orRaise sites x : Run σ α) (orRaise sites (x.map g)) := by
  cases x with
  | ok a => exact pure rfl
  | error message => exact raise sites message

theorem ite {p : Prop} [Decidable p] {x x' : Run σ α} {y y' : Run τ α'} (h : Renames ρ R g x y)
    (h' : Renames ρ R g x' y') : Renames ρ R g (if p then x else x') (if p then y else y') := by
  split
  · exact h
  · exact h'

/-- An action that is left out under a condition, and what follows in any case. -/
theorem skip {p : Prop} [Decidable p] {x : Run σ Unit} {y : Run τ Unit} {f : Unit → Run σ α}
    {f' : Unit → Run τ α'} (hx : Repeats ρ R x y) (hf : ∀ u, Renames ρ R g (f u) (f' u)) :
    Renames ρ R g (if p then f () else x >>= f) (if p then f' () else y >>= f') :=
  ite (hf ()) (bind hx hf)

section

variable [SteadyUnder ρ R]

/-! ### Memory -/

theorem load {f : Memory → α} {f' : Memory → α'} (h : ∀ m n : Memory, m.Renumbers ρ n → f' n = g (f m)) :
    Renames ρ R g (load f : Run σ α) (load f') :=
  get fun _ _ hst => pure (h _ _ (SteadyUnder.renumbers hst).memory)

theorem store {f f' : Memory → Memory} (hrenumbers : ∀ m n : Memory, m.Renumbers ρ n → (f m).Renumbers ρ (f' n))
    (hfields : ∀ m : Memory, m.Linked → m.SameFields (f m)) (hfunctions : ∀ m : Memory, m.SameFunctions (f m)) :
    Repeats ρ R (store f : Run σ Unit) (store f') := by
  rintro ⟨memory, stack, captured, _⟩ ⟨memory', _, captured', _⟩ hst
  obtain ⟨hmemory, rfl, -⟩ := SteadyUnder.renumbers hst
  exact .ok rfl (SteadyUnder.moved hst _ _ stack (hrenumbers _ _ hmemory) (hfunctions _) (hfields _))

theorem allocate {f : Memory → α × Memory} {f' : Memory → α' × Memory}
    (hrenumbers : ∀ m n : Memory, m.Renumbers ρ n → (f' n).1 = g (f m).1 ∧ (f m).2.Renumbers ρ (f' n).2)
    (hfields : ∀ m : Memory, m.Linked → m.SameFields (f m).2)
    (hfunctions : ∀ m : Memory, m.SameFunctions (f m).2) :
    Renames ρ R g (allocate f : Run σ α) (allocate f') := by
  rintro ⟨memory, stack, captured, _⟩ ⟨memory', _, captured', _⟩ hst
  obtain ⟨hmemory, rfl, -⟩ := SteadyUnder.renumbers hst
  obtain ⟨hresult, hleft⟩ := hrenumbers _ _ hmemory
  exact .ok hresult (SteadyUnder.moved hst _ _ stack hleft (hfunctions _) (hfields _))

theorem newTable {t t' : Table} (ht : t' = t.renumber ρ) (hlinked : t.Linked) :
    Renames ρ R ρ.table (Script.allocate (·.newTable t) : Run σ Nat) (Script.allocate (·.newTable t')) := by
  subst ht
  exact allocate (fun _ _ h => ⟨h.tables.number_size.symm, h.newTable t⟩) (fun _ h => h.newTable hlinked)
    fun _ => ⟨rfl, rfl⟩

theorem fail (e : ScriptError) : Renames ρ R g (fail e : Run σ α) (fail e) :=
  bind (g := ρ.failure) (allocate (fun _ _ h => ⟨h.failures.number_size.symm, h.newFailure e⟩)
    (fun _ h => h.withOthers rfl) fun _ => ⟨rfl, rfl⟩) fun id => throw (.thrown (.failure id))

/-! ### The stack -/

theorem modifyStack (f f' : Array Value → Array Value)
    (h : ∀ stack, f' (stack.map (Value.renumber ρ)) = (f stack).map (Value.renumber ρ)) :
    Repeats ρ R (modify fun m => { m with stack := f m.stack } : Run σ Unit)
      (modify fun m => { m with stack := f' m.stack }) := by
  rintro ⟨memory, stack, captured, _⟩ ⟨memory', _, captured', _⟩ hst
  obtain ⟨hmemory, rfl, -⟩ := SteadyUnder.renumbers hst
  refine .ok rfl ?_
  dsimp only
  rw [h]
  exact SteadyUnder.moved hst memory memory' _ hmemory ⟨rfl, rfl⟩ fun h => h.sameFields

omit [SteadyUnder ρ R] in
theorem getD_map (stack : Array Value) (position : Nat) :
    (stack.map (Value.renumber ρ)).getD position .nil = (stack.getD position .nil).renumber ρ := by
  simp only [Array.getD_eq_getD_getElem?, Array.getElem?_map]
  cases stack[position]? <;> rfl

theorem top (position : Nat) : Renames ρ R (Value.renumber ρ) (top position : Run σ Value) (top position) :=
  get fun s t hst => pure (by rw [(SteadyUnder.renumbers hst).stack, getD_map])

theorem put (position : Nat) (v : Value) :
    Repeats ρ R (put position v : Run σ Unit) (put position (v.renumber ρ)) :=
  modifyStack (replaced · position v) (replaced · position (v.renumber ρ)) fun stack =>
    replaced_map (Value.renumber ρ) stack position v

theorem grow (size : Nat) : Repeats ρ R (grow size : Run σ Unit) (grow size) := by
  have hpadded : ∀ (count : Nat) (stack : Array Value),
      padded (stack.map (Value.renumber ρ)) count = (padded stack count).map (Value.renumber ρ) := by
    intro count
    induction count with
    | zero => exact fun _ => rfl
    | succ count ih =>
      intro stack
      rw [padded, padded, ← ih, Array.map_push]
      rfl
  refine modifyStack (fun stack => padded stack (size - stack.size))
    (fun stack => padded stack (size - stack.size)) fun stack => ?_
  rw [Array.size_map, hpadded]

theorem putAll (position : Nat) (vs : List Value) :
    Repeats ρ R (putAll position vs : Run σ Unit) (putAll position (vs.map (Value.renumber ρ))) := by
  induction vs generalizing position with
  | nil => exact pure rfl
  | cons v vs ih => exact bind (put position v) fun _ => ih _

theorem clear (position count : Nat) :
    Repeats ρ R (clear position count : Run σ Unit) (clear position count) := by
  induction count generalizing position with
  | zero => exact pure rfl
  | succ count ih => exact bind (put position .nil) fun _ => ih _

theorem taken (position count : Nat) :
    Renames ρ R (List.map (Value.renumber ρ)) (taken position count : Run σ (List Value))
      (taken position count) :=
  get fun s t hst => pure (by
    rw [(SteadyUnder.renumbers hst).stack, List.map_map]
    exact List.map_congr_left fun i _ => getD_map _ _)

theorem moveDown (source position count : Nat) :
    Repeats ρ R (moveDown source position count : Run σ Unit) (moveDown source position count) := by
  induction count generalizing source position with
  | zero => exact pure rfl
  | succ count ih => exact bind (top source) fun v => bind (put position v) fun _ => ih _ _

/-! ### Captured variables -/

theorem readCell (id : Nat) :
    Renames ρ R (Value.renumber ρ) (readCell id : Run σ Value) (readCell (ρ.cell id)) := by
  unfold Script.readCell
  refine get fun s t hst => ?_
  rw [(SteadyUnder.renumbers hst).memory.cells.getElem?]
  cases s.memory.cells[id]? with
  | none => exact pure rfl
  | some cell =>
    cases cell with
    | onStack position => exact top position
    | apart v => exact pure rfl

/-- The captured variables from a position on are the topmost of those on the stack. -/
theorem endsLike_closeAll (position : Nat) {captured : List (Nat × Nat)} {s : Machine σ} {t : Machine τ}
    (hst : R s t) (hcaptured : captured <:+ s.captured) :
    EndsLike R (fun fault fault' => fault' = fault.renumber ρ) (fun u u' => u' = u)
      ((closeFrom.closeAll position captured : Run σ Unit).run s)
      ((closeFrom.closeAll position (captured.map (Prod.map id ρ.cell)) : Run τ Unit).run t) := by
  -- the list of the machine is only replaced at the end, so it has a suffix that is left to do
  induction captured generalizing s t with
  | nil => exact .ok rfl (SteadyUnder.dropped hst [] hcaptured)
  | cons topmost rest ih =>
    obtain ⟨p, id⟩ := topmost
    rw [closeFrom.closeAll, List.map_cons, Prod.map_apply, closeFrom.closeAll]
    dsimp only [id_eq]
    split
    · have hsealed := SteadyUnder.sealed hst p id (s.stack.getD p .nil) (hcaptured.subset List.mem_cons_self)
      have hrest := ih hsealed ((List.suffix_cons _ _).trans hcaptured)
      rw [← getD_map, ← (SteadyUnder.renumbers (ρ := ρ) hst).stack] at hrest
      exact hrest
    · exact .ok rfl (SteadyUnder.dropped hst _ hcaptured)

theorem closeFrom (position : Nat) :
    Repeats ρ R (closeFrom position : Run σ Unit) (closeFrom position) := by
  unfold Script.closeFrom
  intro s t hst
  have hclose := endsLike_closeAll position hst (List.suffix_refl _)
  rw [← (SteadyUnder.renumbers (ρ := ρ) hst).captured] at hclose
  exact hclose

theorem guarded {x : Run σ α} {y : Run τ α'} (height : Nat) (h : Renames ρ R g x y) :
    Renames ρ R g (guarded height x) (guarded height y) :=
  tryCatch h fun fault => bind (closeFrom height) fun _ => throw fault

/-! ### Tables -/

theorem peek (id : Nat) (key : Value) :
    Renames ρ R (Value.renumber ρ) (peek id key : Run σ Value) (peek (ρ.table id) (key.renumber ρ)) := by
  have hget : ∀ k, Renames ρ R (Value.renumber ρ) (Script.load fun m => (m.table id).get k : Run σ Value)
      (Script.load fun m => (m.table (ρ.table id)).get (k.renumber ρ)) := fun k =>
    load fun m n h => by rw [h.table, Table.get_renumber]
  unfold Script.peek
  rw [Value.key?_renumber]
  rcases key.key? with - | k
  · exact pure rfl
  · cases k with
    | int n =>
      exact bind (store (fun _ _ h => h.touch id (.int n)) (fun _ h => h.touch id _)
        fun m => m.sameFunctions_touch id _) fun _ => hget (.int n)
    | _ => exact hget _

theorem itemsFrom (id fuel n : Nat) (read : List Value) :
    Renames ρ R (List.map (Value.renumber ρ)) (itemsFrom id fuel n read : Run σ (List Value))
      (itemsFrom (ρ.table id) fuel n (read.map (Value.renumber ρ))) := by
  induction fuel generalizing n read with
  | zero => exact pure List.map_reverse.symm
  | succ fuel ih =>
    refine bind (peek id _) fun v => ?_
    cases v <;> first | exact pure List.map_reverse.symm | exact ih _ (_ :: read)

theorem items (id : Nat) :
    Renames ρ R (List.map (Value.renumber ρ)) (items id : Run σ (List Value)) (items (ρ.table id)) :=
  itemsFrom id _ _ []

end

/-! ### Variables and functions that are made -/

variable [LockstepUnder ρ R]

/-- Something other than a table is made, or changed. -/
theorem allocateOther {f : Memory → α × Memory} {f' : Memory → α' × Memory}
    (hrenumbers : ∀ m n : Memory, m.Renumbers ρ n → (f' n).1 = g (f m).1 ∧ (f m).2.Renumbers ρ (f' n).2)
    (h : ∀ m : Memory, (f m).2.tables = m.tables) :
    Renames ρ R g (Script.allocate f : Run σ α) (Script.allocate f') := by
  rintro ⟨memory, stack, captured, _⟩ ⟨memory', _, _, _⟩ hst
  obtain ⟨hmemory, rfl, rfl⟩ := LockstepUnder.renumbers hst
  obtain ⟨hresult, hleft⟩ := hrenumbers _ _ hmemory
  exact .ok hresult (LockstepUnder.moved hst _ _ _ _ hleft fun hm => hm.withOthers (h memory))

theorem storeOther {f f' : Memory → Memory}
    (hrenumbers : ∀ m n : Memory, m.Renumbers ρ n → (f m).Renumbers ρ (f' n))
    (h : ∀ m : Memory, (f m).tables = m.tables) :
    Repeats ρ R (Script.store f : Run σ Unit) (Script.store f') := by
  rintro ⟨memory, stack, captured, _⟩ ⟨memory', _, _, _⟩ hst
  obtain ⟨hmemory, rfl, rfl⟩ := LockstepUnder.renumbers hst
  exact .ok rfl (LockstepUnder.moved hst _ _ _ _ (hrenumbers _ _ hmemory) fun hm => hm.withOthers (h memory))

theorem newCell (c : Cell) : Renames ρ R ρ.cell (Script.allocate (·.newCell c) : Run σ Nat)
    (Script.allocate (·.newCell (c.renumber ρ))) :=
  allocateOther (fun _ _ h => ⟨h.cells.number_size.symm, h.newCell c⟩) fun _ => rfl

theorem newClosure {f f' : Closure} (hf : f' = f.renumber ρ) :
    Renames ρ R ρ.closure (Script.allocate (·.newClosure f) : Run σ Nat)
      (Script.allocate (·.newClosure f')) := by
  subst hf
  exact allocateOther (fun _ _ h => ⟨h.closures.number_size.symm, h.newClosure f⟩) fun _ => rfl

theorem writeCell (id : Nat) (v : Value) :
    Repeats ρ R (writeCell id v : Run σ Unit) (writeCell (ρ.cell id) (v.renumber ρ)) := by
  have hapart : Repeats ρ R
      (Script.store fun m => { m with cells := replaced m.cells id (.apart v) } : Run σ Unit)
      (Script.store fun m => { m with cells := replaced m.cells (ρ.cell id) (.apart (v.renumber ρ)) }) :=
    storeOther (fun _ _ h => h.withCell id (.apart v)) fun _ => rfl
  unfold Script.writeCell
  refine get fun s t hst => ?_
  rw [(LockstepUnder.renumbers hst).memory.cells.getElem?]
  cases s.memory.cells[id]? with
  | none => exact hapart
  | some cell =>
    cases cell with
    | onStack position => exact put position v
    | apart w => exact hapart

/-- The captured variables that stand on the stack change. -/
theorem modifyCaptured (f f' : List (Nat × Nat) → List (Nat × Nat))
    (h : ∀ captured, f' (captured.map (Prod.map id ρ.cell)) = (f captured).map (Prod.map id ρ.cell)) :
    Repeats ρ R (modify fun m => { m with captured := f m.captured } : Run σ Unit)
      (modify fun m => { m with captured := f' m.captured }) := by
  rintro ⟨memory, stack, captured, _⟩ ⟨memory', _, _, _⟩ hst
  obtain ⟨hmemory, rfl, rfl⟩ := LockstepUnder.renumbers hst
  refine .ok rfl ?_
  dsimp only
  rw [h]
  exact LockstepUnder.moved hst memory memory' stack _ hmemory fun h => h.sameFields

omit [LockstepUnder ρ R] in
theorem capturedAt?_map (position : Nat) (captured : List (Nat × Nat)) :
    capturedAt? position (captured.map (Prod.map id ρ.cell)) = (capturedAt? position captured).map ρ.cell := by
  induction captured with
  | nil => rfl
  | cons topmost rest ih =>
    obtain ⟨p, id⟩ := topmost
    by_cases hp : p = position <;> by_cases hlt : p < position <;> simp [capturedAt?, hp, hlt, ih]

omit [LockstepUnder ρ R] in
theorem addCaptured_map (position cell : Nat) (captured : List (Nat × Nat)) :
    addCaptured position (ρ.cell cell) (captured.map (Prod.map id ρ.cell)) =
      (addCaptured position cell captured).map (Prod.map id ρ.cell) := by
  induction captured with
  | nil => rfl
  | cons topmost rest ih =>
    obtain ⟨p, id⟩ := topmost
    by_cases hlt : position < p <;> simp [addCaptured, hlt, ih]

theorem captureAt (position : Nat) :
    Renames ρ R ρ.cell (captureAt position : Run σ Nat) (captureAt position) := by
  unfold Script.captureAt
  refine get fun s t hst => ?_
  rw [(LockstepUnder.renumbers hst).captured, capturedAt?_map]
  cases capturedAt? position s.captured with
  | some id => exact pure rfl
  | none =>
    exact bind (newCell (.onStack position)) fun id =>
      bind (modifyCaptured (addCaptured position id) _ (addCaptured_map position id)) fun _ => pure rfl

end Renames

end

end BuildComposition.Script
