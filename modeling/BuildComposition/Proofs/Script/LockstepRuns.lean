import BuildComposition.Proofs.Script.LockstepLibrary

/-!
# Scripts on machines in step

On machines in step a script does the same under other numbers: every instruction, every call and every whole
source.  Two things depend on the machines.  One is an assignment to a field, which changes what the relation
between them may depend on.  The other is how library functions are called, so that a call can be recorded or
be taken apart before it is compared with the one that scripts make.

## Main definitions

* `Library`, `Calls.callBy`, `Calls.stepBy`: functions that call one another, with another way to call
  library functions
* `Activation.renumber`, `Calls.renumber`: functions that run, under other numbers

## Main results

* `Renames.executeQuietly`, `Renames.execute`: an instruction
* `Renames.stepBy`: the next instruction of functions that call one another
* `Renames.fileValue`: the value of a file
-/

namespace BuildComposition.Script

variable {σ τ α β : Type} {ρ : Renumbering} {R : Machine σ → Machine τ → Prop} {invoke : Invoke σ}
  {invoke' : Invoke τ}

/-! ## Other ways to call library functions -/

/-- A way to call library functions. -/
abbrev Library (σ : Type) := Builtin → List Value → Caller → Run σ (List Value)

namespace Calls

/-- The current function calls the one at a position, as in `call`. -/
def callBy (library : Library σ) (c : Calls) (sites : Sites) (position count : Nat)
    (wanted : Option Nat) : Run σ Calls := do
  match ← top position with
  | .closure id =>
    let f ← load (·.closure id)
    return ⟨← f.activate position count wanted sites, c.current :: c.waiting⟩
  | .builtin b =>
    let values ← library b (← taken (position + 1) count) ⟨sites, position⟩
    return c.follow (← receive position values wanted)
  | v => refuse sites v

/-- The function at a position takes the place of the current one, as in `tailCall`. -/
def tailCallBy (library : Library σ) (c : Calls) (sites : Sites) (position count : Nat) :
    Run σ (Sum Calls (List Value)) := do
  let a := c.current
  closeFrom a.base
  match ← top position with
  | .closure id =>
    let f ← load (·.closure id)
    if maxStack + a.shift < position + 1 + count + f.code.frameSize then
      raise sites "stack overflow"
    moveDown (position + 1) (a.home + 1) count
    return .inl ⟨← f.begin a.home count a.wanted, c.waiting⟩
  | .builtin b =>
    c.finish (← library b (← taken (position + 1) count) ⟨sites, position⟩)
  | v => refuse sites v

/-- What follows the current instruction. -/
def goOnBy (library : Library σ) (c : Calls) (sites : Sites) : Flow → Run σ (Sum Calls (List Value))
  | .call position count wanted => .inl <$> c.callBy library sites position count wanted
  | .tailCall position count => c.tailCallBy library sites position count
  | .give position count => do
    closeFrom c.current.base
    c.finish (← taken position count)
  | flow => return .inl (c.follow flow)

/-- Executes the next instruction, as `step` does. -/
def stepBy (library : Library σ) (invoke : Invoke σ) (outer : Sites) (c : Calls) :
    Run σ (Sum Calls (List Value)) :=
  match c.current.code.instructions[c.current.place]? with
  | none => c.finish []
  | some i => do c.goOnBy library (c.sites outer) (← c.current.execute invoke (c.sites outer) i)

theorem step_eq_stepBy [Host σ] (invoke : Invoke σ) (outer : Sites) (c : Calls) :
    c.step invoke outer = c.stepBy (runBuiltin invoke) invoke outer := by
  unfold step stepBy
  dsimp only
  cases c.current.code.instructions[c.current.place]? with
  | none => rfl
  | some i =>
    refine congrArg (Bind.bind _) (funext fun flow => ?_)
    cases flow <;> rfl

end Calls

/-- On machines in step, two ways to call library functions do the same under other numbers. -/
def RenamesLibrary (ρ : Renumbering) (R : Machine σ → Machine τ → Prop) (library : Library σ)
    (library' : Library τ) : Prop :=
  ∀ b args caller, Renames ρ R (renumberAll ρ) (library b args caller)
    (library' b (renumberAll ρ args) caller)

/-- On machines in step, two ways to call library functions do the same. -/
def MirrorsLibrary (R : Machine σ → Machine τ → Prop) (library : Library σ) (library' : Library τ) : Prop :=
  ∀ b args caller, Mirrors R (library b args caller) (library' b args caller)

theorem MirrorsLibrary.renames {library : Library σ} {library' : Library τ}
    (h : MirrorsLibrary R library library') : RenamesLibrary 1 R library library' := by
  intro b args caller
  rw [renumberAll_one]
  exact (h b args caller).renames renumberAll_one

/-! ## Functions under other numbers -/

/-- A function that runs, under other numbers. -/
def Activation.renumber (ρ : Renumbering) (a : Activation) : Activation :=
  { a with cells := a.cells.map ρ.cell }

/-- Functions that call one another, under other numbers. -/
def Calls.renumber (ρ : Renumbering) (c : Calls) : Calls :=
  ⟨c.current.renumber ρ, c.waiting.map (Activation.renumber ρ)⟩

theorem Activation.renumber_one (a : Activation) : a.renumber 1 = a :=
  congrArg (fun cells => { a with cells }) (Array.map_id a.cells)

theorem Calls.renumber_one (c : Calls) : c.renumber 1 = c := by
  rw [renumber, c.current.renumber_one, show Activation.renumber 1 = id from funext Activation.renumber_one,
    List.map_id]

theorem Activation.getD_cells_renumber (a : Activation) (c : Nat) :
    (a.renumber ρ).cells.getD c 0 = ρ.cell (a.cells.getD c 0) := by
  simp only [renumber, Array.getD_eq_getD_getElem?, Array.getElem?_map]
  cases a.cells[c]? with
  | none => exact ρ.cell_zero.symm
  | some id => rfl

theorem Activation.follow_renumber (a : Activation) (flow : Flow) :
    (a.renumber ρ).follow flow = (a.follow flow).renumber ρ := by
  cases flow <;> rfl

theorem Calls.follow_renumber (c : Calls) (flow : Flow) :
    (c.renumber ρ).follow flow = (c.follow flow).renumber ρ := by
  simp only [follow, renumber, Activation.follow_renumber]

/-- Other numbers do not change where functions stand. -/
theorem Calls.sites_renumber (c : Calls) (outer : Sites) : (c.renumber ρ).sites outer = c.sites outer := by
  funext level
  match level with
  | 0 => rfl
  | 1 => rfl
  | level + 2 =>
    simp only [sites, renumber, List.getElem?_map, List.length_map]
    cases c.waiting[level]? <;> rfl

namespace Renames

section

variable [SteadyUnder ρ R]

/-! ## The beginning and the end of a function -/

theorem begin (f : Closure) (home count : Nat) (wanted : Option Nat) :
    Renames ρ R (Activation.renumber ρ) (f.begin home count wanted : Run σ Activation)
      ((f.renumber ρ).begin home count wanted) := by
  unfold Closure.begin
  refine ite ?_ ?_
  · refine ite (bind (g := fun u => u) (raise _ _) fun _ => ?_) ?_
    all_goals
      exact bind (grow _) fun _ => bind (clear _ _) fun _ => bind (taken _ _) fun _ =>
        bind (putAll _ _) fun _ => pure rfl
  · exact bind (grow _) fun _ => bind (clear _ _) fun _ => pure rfl

theorem activate (f : Closure) (home count : Nat) (wanted : Option Nat) (sites : Sites) :
    Renames ρ R (Activation.renumber ρ) (f.activate home count wanted sites : Run σ Activation)
      ((f.renumber ρ).activate home count wanted sites) :=
  ite (bind (g := fun u => u) (raise _ _) fun _ => begin f home count wanted) (begin f home count wanted)

theorem receive (position : Nat) (values : List Value) (wanted : Option Nat) :
    Repeats ρ R (receive position values wanted : Run σ Flow)
      (receive position (renumberAll ρ values) wanted) := by
  unfold Script.receive
  rw [List.length_map]
  cases wanted with
  | some wanted =>
    dsimp only
    rw [← List.map_take]
    exact bind (putAll _ _) fun _ => bind (clear _ _) fun _ => pure rfl
  | none => exact bind (grow _) fun _ => bind (putAll _ _) fun _ => pure rfl

/-! ## Instructions -/

omit [SteadyUnder ρ R] in
theorem joined (sites : Sites) (vs : List Value) :
    Renames ρ R (Value.renumber ρ) (joined sites vs : Run σ Value) (joined sites (renumberAll ρ vs)) := by
  induction vs with
  | nil => exact pure rfl
  | cons v vs ih =>
    cases vs with
    | nil => exact pure rfl
    | cons w vs =>
      refine bind ih fun u => ?_
      rw [renumber_concat]
      exact orRaise _ _

theorem unary (sites : Sites) (op : UnaryOp) (v : Value) :
    Renames ρ R (Value.renumber ρ) (unary sites op v : Run σ Value) (unary sites op (v.renumber ρ)) := by
  cases op with
  | not => exact pure (by rw [Value.holds_renumber]; rfl)
  | negate =>
    dsimp only [Script.unary]
    rw [renumber_negate]
    exact orRaise _ _
  | length =>
    cases v with
    | str s => exact pure rfl
    | table id => exact bind (length id) fun _ => pure rfl
    | _ => exact raise _ _

/-- The values of a loop over numbers refer to nothing. -/
theorem keep (position : Nat) {r : Range} (h : r.renumber ρ = r) :
    Repeats ρ R (keep position r : Run σ Unit) (keep position r) := by
  have hput := putAll (ρ := ρ) (R := R) position [r.counter, r.bound, r.step, r.counter]
  have hcounter : r.counter.renumber ρ = r.counter := congrArg Range.counter h
  have hbound : r.bound.renumber ρ = r.bound := congrArg Range.bound h
  have hstep : r.step.renumber ρ = r.step := congrArg Range.step h
  rwa [List.map_cons, List.map_cons, List.map_cons, List.map_cons, List.map_nil, hcounter, hbound,
    hstep] at hput

variable (a : Activation)

theorem read (arg : Arg) :
    Renames ρ R (Value.renumber ρ) (a.read arg : Run σ Value) ((a.renumber ρ).read arg) := by
  cases arg with
  | register r => exact top _
  | cell c =>
    dsimp only [Activation.read]
    rw [a.getD_cells_renumber]
    exact readCell _
  | constant c => exact pure (Value.renumber_of_isPlain ρ c.isPlain_value).symm

theorem write (r : Nat) (v : Value) :
    Repeats ρ R (a.write r v : Run σ Flow) ((a.renumber ρ).write r (v.renumber ρ)) :=
  bind (put _ v) fun _ => pure rfl

/-- An assignment to a field does the same, if what is put into a table does. -/
theorem executeSet (h : RenamesCalls ρ R invoke invoke') (sites : Sites) (object key value : Arg)
    (hown : ∀ id key v, Repeats ρ R (assignOwn sites id key v : Run σ Unit)
      (assignOwn sites (ρ.table id) (key.renumber ρ) (v.renumber ρ))) :
    Repeats ρ R (a.execute invoke sites (.set object key value))
      ((a.renumber ρ).execute invoke' sites (.set object key value)) :=
  bind (read a object) fun object => bind (read a key) fun key => bind (read a value) fun value =>
    bind (assignIndex h _ object key value fun id => hown id key value) fun _ => pure rfl

/-- An instruction does the same, if an assignment to a field or to a captured variable does, and what makes
a function. -/
theorem executeQuietly (h : RenamesCalls ρ R invoke invoke') (sites : Sites) {i : Instruction}
    (hset : ∀ object key value, i = .set object key value →
      Repeats ρ R (a.execute invoke sites i) ((a.renumber ρ).execute invoke' sites i))
    (hassign : ∀ cell source, i = .assign cell source →
      Repeats ρ R (a.execute invoke sites i) ((a.renumber ρ).execute invoke' sites i))
    (hclosure : ∀ dest number, i = .closure dest number →
      Repeats ρ R (a.execute invoke sites i) ((a.renumber ρ).execute invoke' sites i)) :
    Repeats ρ R (a.execute invoke sites i) ((a.renumber ρ).execute invoke' sites i) := by
  cases i with
  | set object key value => exact hset object key value rfl
  | assign cell source => exact hassign cell source rfl
  | closure dest number => exact hclosure dest number rfl
  | move dest source => exact bind (read a source) fun v => write a dest v
  | clear first count => exact bind (clear _ _) fun _ => pure rfl
  | get dest object key =>
    exact bind (read a object) fun v => bind (read a key) fun key =>
      bind (index h _ key v) fun v => write a dest v
  | method dest object key =>
    exact bind (top _) fun v => bind (put _ v) fun _ => bind (read a key) fun key =>
      bind (index h _ key v) fun v => write a dest v
  | newTable dest items entries =>
    exact bind (newTable (Table.renumber_make items entries).symm (Table.linked_make items entries))
      fun id => write a dest (.table id)
  | setItems table count offset =>
    refine bind (top _) fun v => ?_
    cases v with
    | table id =>
      exact bind (taken _ _) fun vs =>
        bind (store (fun _ _ h => h.modifyTable id fun _ => Table.setItems_renumber offset vs)
          (fun m h => h.modifyTable ((h id).setItems offset vs)) fun _ => ⟨rfl, rfl⟩) fun _ => pure rfl
    | _ => exact pure rfl
  | arithmetic op dest left right =>
    refine bind (read a left) fun v => bind (read a right) fun w => ?_
    rw [renumber_arithmetic]
    exact bind (orRaise _ _) fun v => write a dest v
  | unary op dest source => exact bind (top _) fun v => bind (unary _ op v) fun v => write a dest v
  | concat first count => exact bind (taken _ _) fun vs => bind (joined _ vs) fun v => write a first v
  | jump target => exact pure rfl
  | compare relation left right expected target =>
    refine bind (read a left) fun v => bind (read a right) fun w => ?_
    rw [Relation.holds_renumber]
    exact bind (orRaiseSame _ _) fun _ => pure rfl
  | test source expected target => exact bind (top _) fun v => pure (by rw [Value.holds_renumber])
  | choose dest source expected target =>
    refine bind (top _) fun v => ?_
    rw [Value.holds_renumber]
    exact ite (bind (put _ v) fun _ => pure rfl) (pure rfl)
  | call => exact pure rfl
  | tailCall => exact pure rfl
  | give => exact pure rfl
  | rangeStart base target =>
    refine bind (top _) fun start => bind (top _) fun limit => bind (top _) fun step => ?_
    rw [Range.renumber_begin]
    generalize hr : Range.begin start limit step = r
    rcases r with message | - | r
    · exact raise sites message
    · exact (pure rfl : Repeats ρ R (Pure.pure (Flow.jump target)) (Pure.pure (.jump target)))
    · exact (bind (keep _ (Range.renumber_of_begin hr)) fun _ => pure rfl : Repeats ρ R
        (Script.keep (a.base + base) r >>= fun _ => Pure.pure Flow.next)
        (Script.keep (a.base + base) r >>= fun _ => Pure.pure Flow.next))
  | rangeNext base target =>
    refine bind (top _) fun counter => bind (top _) fun bound => bind (top _) fun step => ?_
    rw [show Range.next? ⟨counter.renumber ρ, bound.renumber ρ, step.renumber ρ⟩ =
      Range.next? ⟨counter, bound, step⟩ from Range.renumber_next? ⟨counter, bound, step⟩]
    cases hr : Range.next? ⟨counter, bound, step⟩ with
    | none => exact pure rfl
    | some r => exact bind (keep _ (Range.renumber_of_next? hr)) fun _ => pure rfl
  | eachStart base target =>
    refine bind (top _) fun v => ?_
    rw [Value.holds_renumber]
    exact ite (raise _ _) (pure rfl)
  | eachCall base count =>
    exact bind (top _) fun f => bind (top _) fun state => bind (top _) fun control =>
      bind (h f [state, control] _) fun vs => receive _ vs count
  | eachNext base target =>
    refine bind (top _) fun v => ?_
    cases v <;> first | exact pure rfl | exact bind (put _ _) fun _ => pure rfl
  | varargs dest count =>
    exact ite (bind (g := fun u => u) (raise _ _) fun _ => bind (taken _ _) fun vs => receive _ vs count)
      (bind (taken _ _) fun vs => receive _ vs count)
  | close first => exact bind (closeFrom _) fun _ => pure rfl

/-! ## Functions that call one another -/

theorem finish (c : Calls) (values : List Value) :
    Renames ρ R (Sum.map (Calls.renumber ρ) (renumberAll ρ))
      (c.finish values : Run σ (Sum Calls (List Value))) ((c.renumber ρ).finish (renumberAll ρ values)) := by
  unfold Calls.finish
  cases hwaiting : c.waiting with
  | nil =>
    rw [show (c.renumber ρ).waiting = [] by rw [Calls.renumber, hwaiting]; rfl]
    exact pure rfl
  | cons a waiting =>
    rw [show (c.renumber ρ).waiting = a.renumber ρ :: waiting.map (Activation.renumber ρ) by
      rw [Calls.renumber, hwaiting]; rfl]
    exact bind (receive _ _ _) fun flow => pure (by rw [a.follow_renumber]; rfl)

omit [SteadyUnder ρ R] in
theorem refuse {g : α → β} (sites : Sites) (v : Value) :
    Renames ρ R g (Calls.refuse sites v : Run σ α) (Calls.refuse sites (v.renumber ρ)) := by
  unfold Calls.refuse
  rw [Value.kind_renumber]
  exact raise _ _

variable {library : Library σ} {library' : Library τ}

theorem callBy (h : RenamesLibrary ρ R library library') (c : Calls) (sites : Sites)
    (position count : Nat) (wanted : Option Nat) :
    Renames ρ R (Calls.renumber ρ) (c.callBy library sites position count wanted)
      ((c.renumber ρ).callBy library' sites position count wanted) := by
  refine bind (top _) fun v => ?_
  cases v with
  | closure id =>
    exact bind (load fun _ _ h => h.closure id) fun f => bind (activate f _ _ _ _) fun _ => pure rfl
  | builtin b =>
    exact bind (taken _ _) fun args => bind (h b args _) fun values =>
      bind (receive _ values wanted) fun flow => pure (c.follow_renumber flow)
  | _ => exact refuse _ _

theorem tailCallBy (h : RenamesLibrary ρ R library library') (c : Calls) (sites : Sites)
    (position count : Nat) :
    Renames ρ R (Sum.map (Calls.renumber ρ) (renumberAll ρ)) (c.tailCallBy library sites position count)
      ((c.renumber ρ).tailCallBy library' sites position count) := by
  refine bind (closeFrom _) fun _ => bind (top _) fun v => ?_
  cases v with
  | closure id =>
    have hbegin : ∀ f : Closure, Renames ρ R (Sum.map (Calls.renumber ρ) (renumberAll ρ))
        (do
          Script.moveDown (position + 1) (c.current.home + 1) count
          return .inl ⟨← f.begin c.current.home count c.current.wanted, c.waiting⟩ :
            Run σ (Sum Calls (List Value)))
        (do
          Script.moveDown (position + 1) (c.current.home + 1) count
          return .inl ⟨← (f.renumber ρ).begin c.current.home count c.current.wanted,
            c.waiting.map (Activation.renumber ρ)⟩) :=
      fun f => bind (moveDown _ _ _) fun _ => bind (begin f _ _ _) fun _ => pure rfl
    exact bind (load fun _ _ h => h.closure id) fun f =>
      ite (bind (g := fun u => u) (raise _ _) fun _ => hbegin f) (hbegin f)
  | builtin b => exact bind (taken _ _) fun args => bind (h b args _) fun values => finish c values
  | _ => exact refuse _ _

theorem goOnBy (h : RenamesLibrary ρ R library library') (c : Calls) (sites : Sites) (flow : Flow) :
    Renames ρ R (Sum.map (Calls.renumber ρ) (renumberAll ρ)) (c.goOnBy library sites flow)
      ((c.renumber ρ).goOnBy library' sites flow) := by
  cases flow with
  | call position count wanted => exact map (callBy h c _ position count wanted) fun _ => rfl
  | tailCall position count => exact tailCallBy h c _ position count
  | give position count =>
    exact bind (closeFrom _) fun _ => bind (taken _ _) fun values => finish c values
  | _ => exact pure (congrArg Sum.inl (c.follow_renumber _))

theorem newEnvironment (dir : Path) :
    Renames ρ R ρ.table (newEnvironment dir : Run σ Nat) (newEnvironment dir) := by
  have hglobals : ρ.table Memory.globals = Memory.globals := ρ.table_library _ (Nat.zero_le _)
  refine bind (newTable ?_ (Table.linked_ofFields _)) fun mt =>
    newTable ?_ ((Table.linked_ofFields _).withMetatable _)
  · rw [Table.renumber_ofFields, List.map_cons, List.map_nil, Value.renumber, hglobals]
  · have hfields := Table.renumber_ofFields (ρ := ρ) [("__dir", .ofString dir.text)]
    exact congrArg (fun t : Table => { t with metatable := some (ρ.table mt) }) hfields.symm

end

/-! ## Runs that make functions -/

variable [LockstepUnder ρ R] {library : Library σ} {library' : Library τ}

theorem captured (a : Activation) (captures : List Capture) (cells : Array Nat) :
    Renames ρ R (Array.map ρ.cell) (a.captured captures cells : Run σ (Array Nat))
      ((a.renumber ρ).captured captures (cells.map ρ.cell)) := by
  induction captures generalizing cells with
  | nil => exact pure rfl
  | cons capture captures ih =>
    cases capture with
    | register r =>
      refine bind (captureAt _) fun id => ?_
      rw [← Array.map_push]
      exact ih _
    | cell c =>
      dsimp only [Activation.captured]
      rw [a.getD_cells_renumber, ← Array.map_push]
      exact ih _

/-- An instruction does the same, if an assignment to a field does. -/
theorem execute (a : Activation) (h : RenamesCalls ρ R invoke invoke') (sites : Sites) {i : Instruction}
    (hset : ∀ object key value, i = .set object key value →
      Repeats ρ R (a.execute invoke sites i) ((a.renumber ρ).execute invoke' sites i)) :
    Repeats ρ R (a.execute invoke sites i) ((a.renumber ρ).execute invoke' sites i) := by
  refine executeQuietly a h sites hset ?_ ?_
  · rintro cell source rfl
    dsimp only [Activation.execute]
    rw [a.getD_cells_renumber]
    exact bind (top _) fun v => bind (writeCell _ v) fun _ => pure rfl
  · rintro dest number rfl
    have hcaptured := captured (ρ := ρ) (R := R) a (a.code.functions.getD number .trivial).captures #[]
    rw [Array.map_empty] at hcaptured
    exact bind hcaptured fun cells => bind (newClosure rfl) fun id => write a dest (.closure id)

/-- The next instruction does the same, if it does whenever it assigns to a field. -/
theorem stepBy (hlibrary : RenamesLibrary ρ R library library') (h : RenamesCalls ρ R invoke invoke')
    (outer : Sites) (c : Calls)
    (hset : ∀ object key value,
      Repeats ρ R (c.current.execute invoke (c.sites outer) (.set object key value))
        ((c.current.renumber ρ).execute invoke' (c.sites outer) (.set object key value))) :
    Renames ρ R (Sum.map (Calls.renumber ρ) (renumberAll ρ)) (c.stepBy library invoke outer)
      ((c.renumber ρ).stepBy library' invoke' outer) := by
  unfold Calls.stepBy
  rw [c.sites_renumber, show (c.renumber ρ).current.code.instructions[(c.renumber ρ).current.place]? =
    c.current.code.instructions[c.current.place]? from rfl]
  cases c.current.code.instructions[c.current.place]? with
  | none => exact finish c []
  | some i =>
    refine bind (execute c.current h _ ?_) fun flow => goOnBy hlibrary c _ flow
    rintro object key value rfl
    exact hset object key value

/-! ## Whole sources -/

theorem sourceValue (h : RenamesCalls ρ R invoke invoke') (source : String) (name : Bytes)
    (environment : Nat) : Renames ρ R (Value.renumber ρ) (sourceValue invoke source name environment)
      (sourceValue invoke' source name (ρ.table environment)) := by
  unfold Script.sourceValue
  cases compile? source with
  | none => exact fail _
  | some code =>
    exact bind (newCell (.apart (.table environment))) fun cell =>
      bind (newClosure (by simp [Closure.renumber])) fun id =>
        bind (h (.closure id) [] _) fun vs => pure (first_map vs)

theorem fileValue (h : RenamesCalls ρ R invoke invoke') (tree : FileTree) (path : Path) :
    Renames ρ R (Value.renumber ρ) (fileValue invoke tree path) (fileValue invoke' tree path) := by
  unfold Script.fileValue
  cases tree.canonicalize path with
  | error e => exact fail _
  | ok canonical =>
    dsimp only
    cases tree.readText canonical with
    | error e => exact fail _
    | ok source => exact bind (newEnvironment _) fun environment => sourceValue h _ _ environment

end Renames

/-! ## Under the same numbers -/

theorem renumberSum_one (next : Sum Calls (List Value)) :
    Sum.map (Calls.renumber 1) (renumberAll 1) next = next := by
  cases next with
  | inl c => exact congrArg Sum.inl c.renumber_one
  | inr vs => exact congrArg Sum.inr (renumberAll_one vs)

namespace Mirrors

section

variable [Steady R]

theorem activate (f : Closure) (home count : Nat) (wanted : Option Nat) (sites : Sites) :
    Mirrors R (f.activate home count wanted sites : Run σ Activation) (f.activate home count wanted sites) := by
  simpa only [Closure.renumber_one] using
    (Renames.activate f home count wanted sites).mirrors Activation.renumber_one

theorem receive (position : Nat) (values : List Value) (wanted : Option Nat) :
    Mirrors R (receive position values wanted : Run σ Flow) (receive position values wanted) := by
  simpa only [renumberAll_one] using (Renames.receive position values wanted).mirrors fun _ => rfl

variable (a : Activation)

theorem write (r : Nat) (v : Value) : Mirrors R (a.write r v : Run σ Flow) (a.write r v) := by
  simpa only [a.renumber_one, v.renumber_one] using (Renames.write a r v).mirrors fun _ => rfl

/-- An assignment to a field does the same, if what is put into a table does. -/
theorem executeSet (h : MirrorsCalls R invoke invoke') (sites : Sites) (object key value : Arg)
    (hown : ∀ id key v, Mirrors R (assignOwn sites id key v : Run σ Unit) (assignOwn sites id key v)) :
    Mirrors R (a.execute invoke sites (.set object key value))
      (a.execute invoke' sites (.set object key value)) := by
  have hset := Renames.executeSet a h.renames sites object key value fun id key v => by
    rw [key.renumber_one, v.renumber_one]
    exact (hown id key v).renames fun _ => rfl
  simpa only [a.renumber_one] using hset.mirrors fun _ => rfl

/-- An instruction does the same, if an assignment to a field or to a captured variable does, and what makes
a function. -/
theorem executeQuietly (h : MirrorsCalls R invoke invoke') (sites : Sites) {i : Instruction}
    (hset : ∀ object key value, i = .set object key value →
      Mirrors R (a.execute invoke sites i) (a.execute invoke' sites i))
    (hassign : ∀ cell source, i = .assign cell source →
      Mirrors R (a.execute invoke sites i) (a.execute invoke' sites i))
    (hclosure : ∀ dest number, i = .closure dest number →
      Mirrors R (a.execute invoke sites i) (a.execute invoke' sites i)) :
    Mirrors R (a.execute invoke sites i) (a.execute invoke' sites i) := by
  have hrenames : Mirrors R (a.execute invoke sites i) (a.execute invoke' sites i) →
      Repeats 1 R (a.execute invoke sites i) ((a.renumber 1).execute invoke' sites i) := by
    rw [a.renumber_one]
    exact fun h => h.renames fun _ => rfl
  have hquiet := Renames.executeQuietly a h.renames sites
    (fun object key value hi => hrenames (hset object key value hi))
    (fun cell source hi => hrenames (hassign cell source hi))
    fun dest number hi => hrenames (hclosure dest number hi)
  simpa only [a.renumber_one] using hquiet.mirrors fun _ => rfl

theorem finish (c : Calls) (values : List Value) :
    Mirrors R (c.finish values : Run σ (Sum Calls (List Value))) (c.finish values) := by
  simpa only [c.renumber_one, renumberAll_one] using (Renames.finish c values).mirrors renumberSum_one

omit [Steady R] in
theorem refuse (sites : Sites) (v : Value) :
    Mirrors R (Calls.refuse sites v : Run σ α) (Calls.refuse sites v) := raise _ _

variable {library : Library σ} {library' : Library τ}

theorem goOnBy (h : MirrorsLibrary R library library') (c : Calls) (sites : Sites) (flow : Flow) :
    Mirrors R (c.goOnBy library sites flow) (c.goOnBy library' sites flow) := by
  simpa only [c.renumber_one] using (Renames.goOnBy h.renames c sites flow).mirrors renumberSum_one

theorem newEnvironment (dir : Path) : Mirrors R (newEnvironment dir : Run σ Nat) (newEnvironment dir) :=
  (Renames.newEnvironment dir).mirrors fun _ => rfl

end

variable [Lockstep R] {library : Library σ} {library' : Library τ}

/-- An instruction does the same, if an assignment to a field does. -/
theorem execute (a : Activation) (h : MirrorsCalls R invoke invoke') (sites : Sites) {i : Instruction}
    (hset : ∀ object key value, i = .set object key value →
      Mirrors R (a.execute invoke sites i) (a.execute invoke' sites i)) :
    Mirrors R (a.execute invoke sites i) (a.execute invoke' sites i) := by
  have hexecute := Renames.execute a h.renames sites (i := i) fun object key value hi => by
    rw [a.renumber_one]
    exact (hset object key value hi).renames fun _ => rfl
  simpa only [a.renumber_one] using hexecute.mirrors fun _ => rfl

/-- The next instruction does the same, if it does whenever it assigns to a field. -/
theorem stepBy (hlibrary : MirrorsLibrary R library library') (h : MirrorsCalls R invoke invoke')
    (outer : Sites) (c : Calls)
    (hset : ∀ object key value,
      Mirrors R (c.current.execute invoke (c.sites outer) (.set object key value))
        (c.current.execute invoke' (c.sites outer) (.set object key value))) :
    Mirrors R (c.stepBy library invoke outer) (c.stepBy library' invoke' outer) := by
  have hstep := Renames.stepBy hlibrary.renames h.renames outer c fun object key value => by
    rw [c.current.renumber_one]
    exact (hset object key value).renames fun _ => rfl
  simpa only [c.renumber_one] using hstep.mirrors renumberSum_one

theorem sourceValue (h : MirrorsCalls R invoke invoke') (source : String) (name : Bytes)
    (environment : Nat) : Mirrors R (sourceValue invoke source name environment)
      (sourceValue invoke' source name environment) :=
  (Renames.sourceValue h.renames source name environment).mirrors Value.renumber_one

theorem fileValue (h : MirrorsCalls R invoke invoke') (tree : FileTree) (path : Path) :
    Mirrors R (fileValue invoke tree path) (fileValue invoke' tree path) :=
  (Renames.fileValue h.renames tree path).mirrors Value.renumber_one

end Mirrors

end BuildComposition.Script
