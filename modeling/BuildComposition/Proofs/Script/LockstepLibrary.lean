import BuildComposition.Proofs.Script.RenumberedMachines

/-!
# The library on machines in step

No function of the library assigns to a field: those that change a table change its items or its
metatable, and everything else they leave to the functions that they call.  On machines in step they do
the same under other numbers, if the calls that they make do.

## Main definitions

* `RenamesCalls`, `MirrorsCalls`: two ways to call a value that do the same
* `Call.renumber`: the call of a library function under other numbers, with another way to call values
* `Call.within`: the same call with another way to call values

## Main results

* `Renames.index`: the value under a key
* `Renames.requestOf`: the conversion of the arguments of a request
* `Renames.runBuiltin`, `Mirrors.runBuiltin`: a call of a library function
-/

namespace BuildComposition.Script

variable {σ τ α : Type} {R : Machine σ → Machine τ → Prop} {invoke : Invoke σ} {invoke' : Invoke τ}

/-- Values under other numbers. -/
abbrev renumberAll (ρ : Renumbering) : List Value → List Value := List.map (Value.renumber ρ)

theorem renumberAll_one (vs : List Value) : renumberAll 1 vs = vs := by
  rw [renumberAll, show Value.renumber 1 = id from funext Value.renumber_one, List.map_id]

/-- On machines in step, two ways to call a value do the same under other numbers. -/
def RenamesCalls (ρ : Renumbering) (R : Machine σ → Machine τ → Prop) (invoke : Invoke σ)
    (invoke' : Invoke τ) : Prop :=
  ∀ f args caller, Renames ρ R (renumberAll ρ) (invoke f args caller)
    (invoke' (f.renumber ρ) (renumberAll ρ args) caller)

/-- On machines in step, two ways to call a value do the same. -/
def MirrorsCalls (R : Machine σ → Machine τ → Prop) (invoke : Invoke σ) (invoke' : Invoke τ) : Prop :=
  ∀ f args caller, Mirrors R (invoke f args caller) (invoke' f args caller)

theorem MirrorsCalls.renames (h : MirrorsCalls R invoke invoke') : RenamesCalls 1 R invoke invoke' := by
  intro f args caller
  rw [f.renumber_one, renumberAll_one]
  exact (h f args caller).renames renumberAll_one

/-- The call of a library function with another way to call values. -/
def Call.within (c : Call σ) (invoke : Invoke τ) : Call τ := { c with invoke }

/-- The call of a library function under other numbers, with another way to call values. -/
def Call.renumber (ρ : Renumbering) (c : Call σ) (invoke : Invoke τ) : Call τ :=
  { c with invoke, args := renumberAll ρ c.args }

variable {ρ : Renumbering}

/-- Where an access ends, under other numbers. -/
def Reached.renumber (ρ : Renumbering) : Reached → Reached
  | .own holder found => .own (holder.renumber ρ) (found.renumber ρ)
  | .function f object => .function (f.renumber ρ) (object.renumber ρ)

theorem first_map (vs : List Value) : first (renumberAll ρ vs) = (first vs).renumber ρ := by
  cases vs <;> rfl

namespace Call

variable (c : Call σ) (invoke : Invoke τ)

theorem renumber_one : c.renumber 1 invoke = c.within invoke := by
  rw [renumber, renumberAll_one]
  rfl

@[simp] theorem args_renumber : (c.renumber ρ invoke).args = renumberAll ρ c.args := rfl

@[simp] theorem arg_renumber (n : Nat) : (c.renumber ρ invoke).arg n = (c.arg n).renumber ρ := by
  simp only [arg, args_renumber, List.getD_eq_getElem?_getD, List.getElem?_map]
  cases c.args[n - 1]? <;> rfl

@[simp] theorem given_renumber (n : Nat) : (c.renumber ρ invoke).given n = c.given n := by
  rw [given, given, arg_renumber]
  cases c.arg n <;> rfl

end Call

namespace Renames

variable {c : Call σ}

theorem orRaiseSame (sites : Sites) (x : Except String α) :
    Repeats ρ R (Script.orRaise sites x : Run σ α) (Script.orRaise sites x) := by
  cases x with
  | ok a => exact pure rfl
  | error message => exact raise sites message

/-! ## Arguments -/

variable {β : Type} {g : α → β}

theorem reject (n : Nat) (why : String) :
    Renames ρ R g (c.reject n why : Run σ α) ((c.renumber ρ invoke').reject n why) := raise _ _

theorem mistyped (n : Nat) (expected : String) :
    Renames ρ R g (c.mistyped n expected : Run σ α) ((c.renumber ρ invoke').mistyped n expected) := by
  unfold Call.mistyped
  simp only [Call.args_renumber, Call.arg_renumber, List.length_map, Value.kind_renumber]
  exact reject _ _

theorem any (n : Nat) : Renames ρ R (Value.renumber ρ) (c.any n) ((c.renumber ρ invoke').any n) := by
  unfold Call.any
  rw [Call.args_renumber, List.length_map, Call.arg_renumber]
  exact ite (pure rfl) (reject _ _)

theorem integer (n : Nat) : Repeats ρ R (c.integer n) ((c.renumber ρ invoke').integer n) := by
  unfold Call.integer
  rw [Call.arg_renumber, integer?_renumber, number?_renumber]
  cases integer? (c.arg n) with
  | some i => exact pure rfl
  | none =>
    cases number? (c.arg n) with
    | some v => exact reject _ _
    | none => exact mistyped _ _

theorem integerD (n : Nat) (default : Int) :
    Repeats ρ R (c.integerD n default) ((c.renumber ρ invoke').integerD n default) := by
  unfold Call.integerD
  rw [Call.given_renumber]
  exact ite (integer n) (pure rfl)

theorem text (n : Nat) : Repeats ρ R (c.text n) ((c.renumber ρ invoke').text n) := by
  unfold Call.text
  rw [Call.arg_renumber, Value.text?_renumber]
  cases (c.arg n).text? with
  | some s => exact pure rfl
  | none => exact mistyped _ _

theorem table (n : Nat) : Renames ρ R ρ.table (c.table n) ((c.renumber ρ invoke').table n) := by
  unfold Call.table
  rw [Call.arg_renumber]
  cases c.arg n <;> first | exact pure rfl | exact mistyped _ _

/-! ## Functions that only look at their arguments -/

theorem type : Renames ρ R (renumberAll ρ) c.type (c.renumber ρ invoke').type :=
  bind (any 1) fun v => pure (by rw [Value.kind_renumber]; rfl)

theorem tonumber : Renames ρ R (renumberAll ρ) c.tonumber (c.renumber ρ invoke').tonumber := by
  unfold Call.tonumber
  rw [Call.given_renumber, Call.arg_renumber]
  refine ite (bind (integer 2) fun n => ?_) (bind (any 1) fun v => pure ?_)
  · cases c.arg 1 with
    | str s =>
      refine ite (reject _ _) (pure ?_)
      cases Call.inBase? n.toNat s <;> rfl
    | _ => exact mistyped _ _
  · rw [number?_renumber]
    cases hv : number? v with
    | none => rfl
    | some n => exact congrArg (fun n => [n]) (renumber_of_number? hv).symm

theorem ipairs : Renames ρ R (renumberAll ρ) c.ipairs (c.renumber ρ invoke').ipairs :=
  bind (any 1) fun _ => pure rfl

theorem select : Renames ρ R (renumberAll ρ) c.select (c.renumber ρ invoke').select := by
  have hothers : Renames ρ R (renumberAll ρ)
      (do
        let n ← c.integer 1
        if n < 0 then
          if c.args.tail.length < n.natAbs then c.reject 1 "index out of range"
          else return c.args.tail.drop (c.args.tail.length - n.natAbs)
        else if n = 0 then c.reject 1 "index out of range"
        else return c.args.tail.drop (n.toNat - 1))
      (do
        let n ← (c.renumber ρ invoke').integer 1
        if n < 0 then
          if c.args.tail.length < n.natAbs then (c.renumber ρ invoke').reject 1 "index out of range"
          else return (renumberAll ρ c.args.tail).drop (c.args.tail.length - n.natAbs)
        else if n = 0 then (c.renumber ρ invoke').reject 1 "index out of range"
        else return (renumberAll ρ c.args.tail).drop (n.toNat - 1)) :=
    bind (integer 1) fun n =>
      ite (ite (reject _ _) (pure List.map_drop.symm)) (ite (reject _ _) (pure List.map_drop.symm))
  unfold Call.select
  dsimp only
  rw [Call.arg_renumber, Call.args_renumber, ← List.map_tail, List.length_map]
  cases c.arg 1 with
  | str s =>
    cases s with
    | nil => exact hothers
    | cons b bs =>
      by_cases hb : b = 35
      · subst hb
        exact pure rfl
      · simpa [hb, Value.renumber] using hothers
  | _ => exact hothers

theorem raiseValue (v : Value) (level : Int) :
    Renames ρ R g (c.raiseValue v level : Run σ α)
      ((c.renumber ρ invoke').raiseValue (v.renumber ρ) level) := by
  cases v with
  | str s => exact ite (throw (.thrown (.str _))) (throw (.thrown (.str s)))
  | _ => exact throw (.thrown _)

theorem error : Renames ρ R (renumberAll ρ) c.error (c.renumber ρ invoke').error := by
  unfold Call.error
  rw [Call.arg_renumber]
  exact bind (integerD 2 1) fun _ => raiseValue _ _

theorem assert : Renames ρ R (renumberAll ρ) c.assert (c.renumber ρ invoke').assert := by
  refine bind (any 1) fun v => ?_
  rw [Value.holds_renumber, Call.args_renumber, Call.arg_renumber]
  refine ite (pure rfl) ?_
  cases c.args with
  | nil => exact raiseValue _ _
  | cons v vs => cases vs <;> first | exact raiseValue (.ofString _) _ | exact raiseValue _ _

theorem upper : Renames ρ R (renumberAll ρ) c.upper (c.renumber ρ invoke').upper :=
  bind (text 1) fun _ => pure rfl

theorem rep : Renames ρ R (renumberAll ρ) c.rep (c.renumber ρ invoke').rep := by
  refine bind (text 1) fun s => bind (integer 2) fun n => ?_
  rw [Call.given_renumber]
  exact ite (bind (text 3) fun _ => pure rfl) (pure rfl)

theorem sub : Renames ρ R (renumberAll ρ) c.sub (c.renumber ρ invoke').sub :=
  bind (text 1) fun _ => bind (integer 2) fun _ => bind (integerD 3 _) fun _ => pure rfl

theorem before (h : RenamesCalls ρ R c.invoke invoke') (v w : Value) :
    Repeats ρ R (c.before v w) ((c.renumber ρ invoke').before (v.renumber ρ) (w.renumber ρ)) := by
  have hcall : ∀ f, Repeats ρ R (do return (first (← c.invoke f [v, w] c.caller)).holds)
      (do return (first (← invoke' (f.renumber ρ) [v.renumber ρ, w.renumber ρ] c.caller)).holds) :=
    fun f => bind (h f [v, w] c.caller) fun vs => pure (by rw [first_map, Value.holds_renumber])
  unfold Call.before
  rw [Call.arg_renumber]
  cases c.arg 2 with
  | nil =>
    rw [Relation.holds_renumber]
    exact orRaiseSame _ _
  | _ => exact hcall _

variable [SteadyUnder ρ R]

/-! ## Access to fields -/

theorem ownValue (key v : Value) : Renames ρ R (Value.renumber ρ) (ownValue key v : Run σ Value)
    (ownValue (key.renumber ρ) (v.renumber ρ)) := by
  cases v with
  | table id => exact peek id key
  | _ => exact pure rfl

theorem handler? (event : String) (sites : Sites) (v : Value) :
    Renames ρ R (Option.map (Value.renumber ρ)) (handler? event sites v : Run σ (Option Value))
      (handler? event sites (v.renumber ρ)) := by
  refine bind (load fun _ _ h => h.metafield event v) fun h => ?_
  cases h with
  | nil => cases v <;> first | exact raise _ _ | exact pure rfl
  | _ => exact pure rfl

/-- An access ends at the same place. -/
theorem reach (event : String) (sites : Sites) (key : Value) (fuel : Nat) (v : Value) :
    Renames ρ R (Reached.renumber ρ) (reach event sites key fuel v : Run σ Reached)
      (reach event sites (key.renumber ρ) fuel (v.renumber ρ)) := by
  induction fuel generalizing v with
  | zero =>
    refine bind (ownValue key v) fun own => ?_
    cases own <;> first | exact raise _ _ | exact pure rfl
  | succ fuel ih =>
    refine bind (ownValue key v) fun own => ?_
    cases own with
    | nil =>
      refine bind (handler? event sites v) fun handler => ?_
      cases handler with
      | none => exact pure rfl
      | some handler => cases handler <;> first | exact ih _ | exact pure rfl
    | _ => exact pure rfl

theorem index (h : RenamesCalls ρ R invoke invoke') (caller : Caller) (key v : Value) :
    Renames ρ R (Value.renumber ρ) (index invoke caller key v)
      (index invoke' caller (key.renumber ρ) (v.renumber ρ)) := by
  refine bind (reach _ _ key _ v) fun reached => ?_
  cases reached with
  | own holder found => exact pure rfl
  | function f object => exact bind (h f [object, key] caller) fun vs => pure (first_map vs)

/-- An assignment does the same if what is put into a table does. -/
theorem assignIndex (h : RenamesCalls ρ R invoke invoke') (caller : Caller) (object key v : Value)
    (hown : ∀ id, Repeats ρ R (assignOwn caller.sites id key v : Run σ Unit)
      (assignOwn caller.sites (ρ.table id) (key.renumber ρ) (v.renumber ρ))) :
    Repeats ρ R (assignIndex invoke caller object key v)
      (assignIndex invoke' caller (object.renumber ρ) (key.renumber ρ) (v.renumber ρ)) := by
  refine bind (reach _ _ key _ object) fun reached => ?_
  cases reached with
  | own holder found => cases holder <;> first | exact hown _ | exact pure rfl
  | function f object => exact bind (h f [object, key, v] caller) fun _ => pure rfl

/-- An item is no field. -/
theorem assignOwn_int (sites : Sites) (id : Nat) (n : Int64) (v : Value) :
    Repeats ρ R (assignOwn sites id (.int n) v : Run σ Unit)
      (assignOwn sites (ρ.table id) (.int n) (v.renumber ρ)) :=
  store (fun _ _ h => h.rawSet id (.int n) v) (fun _ h => h.rawSet_int id n v) fun _ => ⟨rfl, rfl⟩

theorem length (id : Nat) :
    Repeats ρ R (Script.allocate (·.length id) : Run σ Nat) (Script.allocate (·.length (ρ.table id))) :=
  allocate (fun _ _ h => h.length id) (fun _ h => h.length id) fun m => m.sameFunctions_length id

theorem lengthOf (id : Nat) : Repeats ρ R (lengthOf id : Run σ Int) (lengthOf (ρ.table id)) :=
  bind (length id) fun _ => pure rfl

theorem setItem (h : RenamesCalls ρ R c.invoke invoke') (id : Nat) (i : Int) (v : Value) :
    Repeats ρ R (c.setItem id i v) ((c.renumber ρ invoke').setItem (ρ.table id) i (v.renumber ρ)) :=
  assignIndex h _ (.table id) (.int _) v fun id => assignOwn_int _ id _ v

theorem item (h : RenamesCalls ρ R c.invoke invoke') (id : Nat) (i : Int) :
    Renames ρ R (Value.renumber ρ) (c.item id i) ((c.renumber ρ invoke').item (ρ.table id) i) :=
  index h _ (.int _) (.table id)

/-! ## General functions -/

omit [SteadyUnder ρ R] in
theorem describedBy (h : RenamesCalls ρ R c.invoke invoke') (f v : Value) :
    Repeats ρ R (c.describedBy f v) ((c.renumber ρ invoke').describedBy (f.renumber ρ) (v.renumber ρ)) := by
  refine bind (h f [v] c.caller) fun vs => ?_
  rw [first_map, Value.text?_renumber]
  cases (first vs).text? with
  | some s => exact pure rfl
  | none => exact raise _ _

theorem described (h : RenamesCalls ρ R c.invoke invoke') (v : Value) :
    Repeats ρ R (c.described v) ((c.renumber ρ invoke').described (v.renumber ρ)) := by
  refine bind (load fun _ _ h => h.metafield "__tostring" v) fun f => ?_
  cases f <;> first | exact load fun _ _ h => h.display v | exact describedBy h _ v

theorem tostring (h : RenamesCalls ρ R c.invoke invoke') :
    Renames ρ R (renumberAll ρ) c.tostring (c.renumber ρ invoke').tostring :=
  bind (any 1) fun v => bind (described h v) fun _ => pure rfl

/-- No table, variable or function is changed by what is printed. -/
theorem storeOutput (f : Output → Output) :
    Repeats ρ R (Script.store fun m => { m with printed := f m.printed } : Run σ Unit)
      (Script.store fun m => { m with printed := f m.printed }) :=
  store (fun _ _ h => h.withPrinted f) (fun _ h => h.withOthers rfl) fun _ => ⟨rfl, rfl⟩

theorem printAll (h : RenamesCalls ρ R c.invoke invoke') (separator : Bytes) (vs : List Value) :
    Repeats ρ R (c.printAll separator vs) ((c.renumber ρ invoke').printAll separator (renumberAll ρ vs)) := by
  induction vs generalizing separator with
  | nil => exact pure rfl
  | cons v vs ih =>
    exact bind (described h v) fun s => bind (storeOutput (·.write separator)) fun _ =>
      bind (storeOutput (·.write s)) fun _ => ih [9]

theorem print (h : RenamesCalls ρ R c.invoke invoke') :
    Renames ρ R (renumberAll ρ) c.print (c.renumber ρ invoke').print :=
  bind (printAll h [] c.args) fun _ => bind (storeOutput fun o => (o.write [10]).flush) fun _ => pure rfl

theorem ipairsStep (h : RenamesCalls ρ R c.invoke invoke') :
    Renames ρ R (renumberAll ρ) c.ipairsStep (c.renumber ρ invoke').ipairsStep := by
  unfold Call.ipairsStep
  rw [Call.arg_renumber]
  refine bind (integer 2) fun i => bind (index h _ (.int _) _) fun v => ?_
  cases v <;> exact pure rfl

theorem pcall (h : RenamesCalls ρ R c.invoke invoke') :
    Renames ρ R (renumberAll ρ) c.pcall (c.renumber ρ invoke').pcall := by
  unfold Call.pcall
  rw [Call.args_renumber]
  cases c.args with
  | nil => exact throw (.thrown (.ofString _))
  | cons f args =>
    simp only [List.map_cons, List.length_cons, List.length_map]
    refine tryCatch (bind (guarded _ (h f args _)) fun _ => pure rfl) fun fault => ?_
    cases fault with
    | thrown v => exact pure rfl
    | exhausted => exact throw .exhausted

theorem protection (id : Nat) :
    Renames ρ R (Value.renumber ρ) (Call.protection id : Run σ Value) (Call.protection (ρ.table id)) := by
  refine bind (load fun _ _ h => h.metatable id) fun mt => ?_
  cases mt with
  | none => exact pure rfl
  | some mt => exact load fun _ _ h => h.rawGet mt (.ofString _)

theorem setmetatable : Renames ρ R (renumberAll ρ) c.setmetatable (c.renumber ρ invoke').setmetatable := by
  refine bind (table 1) fun id => ?_
  dsimp only
  rw [Call.arg_renumber, Call.args_renumber, List.length_map]
  cases c.arg 2
  case' table mt => refine bind (g := Option.map ρ.table) (pure rfl) fun mt => ?_
  case' nil =>
    refine ite (bind (g := Option.map ρ.table) (pure rfl) fun mt => ?_)
      (bind (g := Option.map ρ.table) (mistyped _ _) fun mt => ?_)
  case' bool | int | float | str | closure | builtin | failure =>
    refine bind (g := Option.map ρ.table) (mistyped _ _) fun mt => ?_
  all_goals
    refine bind (protection id) fun v => ?_
    cases v <;>
      first
      | exact bind (store (fun _ _ h => h.setMetatable id mt) (fun _ h => h.setMetatable id _)
          fun _ => ⟨rfl, rfl⟩) fun _ => pure rfl
      | exact raise _ _

theorem getmetatable : Renames ρ R (renumberAll ρ) c.getmetatable (c.renumber ρ invoke').getmetatable := by
  refine bind (any 1) fun v => ?_
  cases v with
  | table id =>
    refine bind (protection id) fun v => bind (load fun _ _ h => h.metatable id) fun mt => ?_
    cases v <;> cases mt <;> exact pure rfl
  | str s =>
    exact pure (congrArg (fun id => [Value.table id]) (ρ.table_library _ (Nat.le_refl _)).symm)
  | _ => exact pure rfl

theorem access (h : RenamesCalls ρ R c.invoke invoke') :
    Renames ρ R (renumberAll ρ) c.access (c.renumber ρ invoke').access := by
  unfold Call.access
  rw [Call.arg_renumber, Call.arg_renumber]
  exact bind (index h _ _ _) fun _ => pure rfl

theorem rawget : Renames ρ R (renumberAll ρ) c.rawget (c.renumber ρ invoke').rawget :=
  bind (table 1) fun id => bind (any 2) fun key => bind (load fun _ _ h => h.rawGet id key) fun _ => pure rfl

/-! ## Functions of strings -/

theorem fill (h : RenamesCalls ρ R c.invoke invoke') (fuel n : Nat) (template : Bytes) :
    Repeats ρ R (c.fill fuel n template) ((c.renumber ρ invoke').fill fuel n template) := by
  induction fuel generalizing n template with
  | zero => exact throw .exhausted
  | succ fuel ih =>
    rcases template with - | ⟨b, bs⟩
    · exact pure rfl
    · by_cases hb : b = 37
      · subst hb
        by_cases hmark : ∃ rest, bs = 37 :: rest
        · obtain ⟨rest, rfl⟩ := hmark
          exact bind (ih n rest) fun _ => pure rfl
        · have hmark : ∀ rest, bs = 37 :: rest → False := fun rest h => hmark ⟨rest, h⟩
          rw [Call.fill.eq_4 _ _ _ _ hmark, Call.fill.eq_4 _ _ _ _ hmark]
          cases Conversion.read? bs with
          | none => exact raise _ _
          | some conversion =>
            dsimp only
            rw [Call.args_renumber, List.length_map, Call.arg_renumber]
            exact ite (reject _ _) <|
              ite (bind (integer n) fun _ => bind (ih _ _) fun _ => pure rfl) <|
              ite (bind (described h _) fun _ => bind (ih _ _) fun _ => pure rfl) (raise _ _)
      · rw [Call.fill.eq_5 _ _ _ _ _ (fun _ h _ => hb h) hb,
          Call.fill.eq_5 _ _ _ _ _ (fun _ h _ => hb h) hb]
        exact bind (ih n bs) fun _ => pure rfl

theorem format (h : RenamesCalls ρ R c.invoke invoke') :
    Renames ρ R (renumberAll ρ) c.format (c.renumber ρ invoke').format :=
  bind (text 1) fun template => bind (fill h _ 2 template) fun _ => pure rfl

/-! ## Functions of tables -/

theorem pieces (h : RenamesCalls ρ R c.invoke invoke') (id count : Nat) (i : Int)
    (read : List Bytes) : Repeats ρ R (Call.concat.pieces c id count i read)
      (Call.concat.pieces (c.renumber ρ invoke') (ρ.table id) count i read) := by
  induction count generalizing i read with
  | zero => exact pure rfl
  | succ count ih =>
    refine bind (item h id i) fun v => ?_
    rw [Value.text?_renumber]
    cases v.text? with
    | some s => exact ih _ _
    | none => exact raise _ _

theorem concat (h : RenamesCalls ρ R c.invoke invoke') :
    Renames ρ R (renumberAll ρ) c.concat (c.renumber ρ invoke').concat := by
  refine bind (table 1) fun id => bind (lengthOf id) fun length => ?_
  have hpieces : ∀ separator : Bytes, Renames ρ R (renumberAll ρ)
      (do
        let i ← c.integerD 3 1
        let j ← c.integerD 4 length
        let pieces ← Call.concat.pieces c id (j - i + 1).toNat i []
        return [Value.str (List.intercalate separator pieces)])
      (do
        let i ← (c.renumber ρ invoke').integerD 3 1
        let j ← (c.renumber ρ invoke').integerD 4 length
        let pieces ← Call.concat.pieces (c.renumber ρ invoke') (ρ.table id) (j - i + 1).toNat i []
        return [Value.str (List.intercalate separator pieces)]) :=
    fun _ => bind (integerD 3 1) fun _ => bind (integerD 4 length) fun _ =>
      bind (pieces h id _ _ _) fun _ => pure rfl
  rw [Call.given_renumber]
  exact ite (bind (text 2) hpieces) (hpieces [])

theorem size (v : Value) : Repeats ρ R (c.size v) ((c.renumber ρ invoke').size (v.renumber ρ)) := by
  cases v with
  | table id => exact lengthOf id
  | str s => exact pure rfl
  | _ => exact raise _ _

theorem valuesFrom (h : RenamesCalls ρ R c.invoke invoke') (v : Value) (count : Nat) (i : Int)
    (read : List Value) : Renames ρ R (renumberAll ρ) (c.valuesFrom v count i read)
      ((c.renumber ρ invoke').valuesFrom (v.renumber ρ) count i (renumberAll ρ read)) := by
  induction count generalizing i read with
  | zero => exact pure List.map_reverse.symm
  | succ count ih => exact bind (index h _ (.int _) v) fun found => ih _ (found :: read)

theorem unpack (h : RenamesCalls ρ R c.invoke invoke') :
    Renames ρ R (renumberAll ρ) c.unpack (c.renumber ρ invoke').unpack := by
  have hvalues : ∀ i j : Int, Renames ρ R (renumberAll ρ)
      (if 0 < j - i + 1 ∧ maxStack < c.height + (j - i + 1) then
        Script.raise c.callers "too many results to unpack"
      else c.valuesFrom (c.arg 1) (j - i + 1).toNat i [])
      (if 0 < j - i + 1 ∧ maxStack < c.height + (j - i + 1) then
        Script.raise c.callers "too many results to unpack"
      else (c.renumber ρ invoke').valuesFrom ((c.arg 1).renumber ρ) (j - i + 1).toNat i [] :
        Run τ (List Value)) :=
    fun _ _ => ite (raise _ _) (valuesFrom h _ _ _ [])
  unfold Call.unpack
  dsimp only
  rw [Call.arg_renumber, Call.given_renumber]
  refine bind (integerD 2 1) fun i => ?_
  exact ite (bind (integer 3) (hvalues i)) (bind (size _) (hvalues i))

theorem shiftUp (h : RenamesCalls ρ R c.invoke invoke') (id count : Nat) (i : Int) :
    Repeats ρ R (c.shiftUp id count i) ((c.renumber ρ invoke').shiftUp (ρ.table id) count i) := by
  induction count generalizing i with
  | zero => exact pure rfl
  | succ count ih => exact bind (item h id i) fun v => bind (setItem h id _ v) fun _ => ih _

theorem shiftDown (h : RenamesCalls ρ R c.invoke invoke') (id count : Nat) (i : Int) :
    Repeats ρ R (c.shiftDown id count i) ((c.renumber ρ invoke').shiftDown (ρ.table id) count i) := by
  induction count generalizing i with
  | zero => exact pure rfl
  | succ count ih => exact bind (item h id _) fun v => bind (setItem h id i v) fun _ => ih _

theorem insert (h : RenamesCalls ρ R c.invoke invoke') :
    Renames ρ R (renumberAll ρ) c.insert (c.renumber ρ invoke').insert := by
  refine bind (table 1) fun id => bind (lengthOf id) fun length => ?_
  dsimp only
  rw [Call.args_renumber]
  rcases c.args with - | ⟨v, - | ⟨w, - | ⟨u, - | ⟨_, _⟩⟩⟩⟩
  · exact bind (g := fun u => u) (raise _ _) fun _ => pure rfl
  · exact bind (g := fun u => u) (raise _ _) fun _ => pure rfl
  · exact bind (setItem h id _ w) fun _ => pure rfl
  · refine bind (integer 2) fun place => ite (bind (g := fun u => u) (reject _ _) fun _ => pure rfl) ?_
    exact bind (shiftUp h id _ _) fun _ => bind (setItem h id place u) fun _ => pure rfl
  · exact bind (g := fun u => u) (raise _ _) fun _ => pure rfl

theorem remove (h : RenamesCalls ρ R c.invoke invoke') :
    Renames ρ R (renumberAll ρ) c.remove (c.renumber ρ invoke').remove := by
  refine bind (table 1) fun id => bind (lengthOf id) fun length => bind (integerD 2 length) fun place =>
    ite (reject _ _) ?_
  exact bind (item h id place) fun v => bind (shiftDown h id _ _) fun _ =>
    bind (setItem h id _ .nil) fun _ => pure rfl

theorem exchange (h : RenamesCalls ρ R c.invoke invoke') (id : Nat) (i j : Int) :
    Repeats ρ R (c.exchange id i j) ((c.renumber ρ invoke').exchange (ρ.table id) i j) :=
  bind (item h id i) fun v => bind (item h id j) fun w => bind (before h w v) fun _ =>
    ite (bind (setItem h id i w) fun _ => bind (setItem h id j v) fun _ => pure rfl) (pure rfl)

theorem scanUp (h : RenamesCalls ρ R c.invoke invoke') (id : Nat) (pivot : Value) (bound : Int)
    (fuel : Nat) (i : Int) : Repeats ρ R (c.scanUp id pivot bound fuel i)
      ((c.renumber ρ invoke').scanUp (ρ.table id) (pivot.renumber ρ) bound fuel i) := by
  induction fuel generalizing i with
  | zero => exact throw .exhausted
  | succ fuel ih =>
    exact bind (item h id _) fun v => bind (before h v pivot) fun _ =>
      ite (ite (raise _ _) (ih _)) (pure rfl)

theorem scanDown (h : RenamesCalls ρ R c.invoke invoke') (id : Nat) (pivot : Value) (bound : Int)
    (fuel : Nat) (j : Int) : Repeats ρ R (c.scanDown id pivot bound fuel j)
      ((c.renumber ρ invoke').scanDown (ρ.table id) (pivot.renumber ρ) bound fuel j) := by
  induction fuel generalizing j with
  | zero => exact throw .exhausted
  | succ fuel ih =>
    exact bind (item h id _) fun v => bind (before h pivot v) fun _ =>
      ite (ite (raise _ _) (ih _)) (pure rfl)

theorem split (h : RenamesCalls ρ R c.invoke invoke') (id : Nat) (pivot : Value) (last : Int)
    (fuel : Nat) (i j : Int) : Repeats ρ R (c.split id pivot last fuel i j)
      ((c.renumber ρ invoke').split (ρ.table id) (pivot.renumber ρ) last fuel i j) := by
  induction fuel generalizing i j with
  | zero => exact throw .exhausted
  | succ fuel ih =>
    refine bind (scanUp h id pivot _ _ i) fun i => bind (scanDown h id pivot i _ j) fun j =>
      bind (item h id i) fun v => ite ?_ ?_
    · exact bind (item h id _) fun w => bind (setItem h id i w) fun _ =>
        bind (setItem h id _ v) fun _ => pure rfl
    · exact bind (item h id j) fun w => bind (setItem h id i w) fun _ =>
        bind (setItem h id j v) fun _ => ih i j

theorem sortRange (h : RenamesCalls ρ R c.invoke invoke') (id fuel : Nat) (low high : Int) :
    Repeats ρ R (c.sortRange id fuel low high)
      ((c.renumber ρ invoke').sortRange (ρ.table id) fuel low high) := by
  have hexchange : ∀ i j, Repeats ρ R (discard (c.exchange id i j))
      (discard ((c.renumber ρ invoke').exchange (ρ.table id) i j)) :=
    fun i j => map (exchange h id i j) fun _ => rfl
  induction fuel generalizing low high with
  | zero => exact throw .exhausted
  | succ fuel ih =>
    refine ite (pure rfl) ?_
    refine bind (hexchange _ _) fun _ => ite (pure rfl) (bind (exchange h id _ _) fun _ => ?_)
    refine skip (hexchange _ _) fun _ => ite (pure rfl) ?_
    refine bind (item h id _) fun pivot => bind (item h id _) fun v => bind (setItem h id _ v) fun _ =>
      bind (setItem h id _ pivot) fun _ => bind (split h id pivot _ _ _ _) fun place => ?_
    exact ite (bind (ih _ _) fun _ => ih _ _) (bind (ih _ _) fun _ => ih _ _)

theorem sort (h : RenamesCalls ρ R c.invoke invoke') :
    Renames ρ R (renumberAll ρ) c.sort (c.renumber ρ invoke').sort := by
  refine bind (table 1) fun id => bind (lengthOf id) fun length => ite (pure rfl) ?_
  rw [Call.arg_renumber]
  cases c.arg 2 with
  | nil => exact bind (sortRange h id _ _ _) fun _ => pure rfl
  | closure f => exact bind (sortRange h id _ _ _) fun _ => pure rfl
  | builtin b => exact bind (sortRange h id _ _ _) fun _ => pure rfl
  | _ => exact mistyped _ _

/-! ## Conversions -/

theorem asText (v : Value) : Repeats ρ R (asText v : Run σ String) (asText (v.renumber ρ)) := by
  unfold Script.asText
  rw [textOf_renumber]
  cases textOf v with
  | ok t => exact pure rfl
  | error f => exact fail _

theorem asText? (v : Value) : Repeats ρ R (asText? v : Run σ (Option String)) (asText? (v.renumber ρ)) := by
  cases v with
  | nil => exact pure rfl
  | _ => exact map (asText _) fun _ => rfl

theorem asTexts (vs : List Value) :
    Repeats ρ R (asTexts vs : Run σ (List String)) (asTexts (renumberAll ρ vs)) := by
  induction vs with
  | nil => exact pure rfl
  | cons v vs ih => exact bind (asText v) fun _ => bind ih fun _ => pure rfl

theorem fieldOf (h : RenamesCalls ρ R invoke invoke') (caller : Caller) (id : Nat) (name : String) :
    Renames ρ R (Value.renumber ρ) (fieldOf invoke caller id name)
      (fieldOf invoke' caller (ρ.table id) name) := by
  refine bind (load fun _ _ h => h.metatable id) fun mt => ?_
  cases mt with
  | none => exact peek id (.ofString name)
  | some mt =>
    exact bind (h (.builtin .access) [.table id, .ofString name] caller) fun vs => pure (first_map vs)

theorem converting (position : Nat) {convert : Value → Run σ α} {convert' : Value → Run τ β}
    (h : ∀ v, Renames ρ R g (convert v) (convert' (v.renumber ρ))) :
    Renames ρ R g (c.converting position convert) ((c.renumber ρ invoke').converting position convert') := by
  unfold Call.converting
  rw [Call.arg_renumber]
  refine tryCatch (h _) fun fault => ?_
  cases fault with
  | thrown v => exact bind (load fun _ _ h => h.failureOf v) fun _ => fail _
  | exhausted => exact throw .exhausted

theorem textAt (position : Nat) :
    Repeats ρ R (c.textAt position) ((c.renumber ρ invoke').textAt position) :=
  converting position asText

theorem textField? (h : RenamesCalls ρ R c.invoke invoke') (id : Nat) (name : String) :
    Repeats ρ R (c.textField? id name) ((c.renumber ρ invoke').textField? (ρ.table id) name) :=
  bind (fieldOf h _ id name) asText?

theorem placementOf (h : RenamesCalls ρ R c.invoke invoke') (id : Nat) :
    Repeats ρ R (c.placementOf id) ((c.renumber ρ invoke').placementOf (ρ.table id)) := by
  refine bind (textField? h id "kind") fun kind => ?_
  split
  · exact fail _
  · exact pure rfl
  · exact bind (textField? h id "subdir") fun _ => pure rfl
  · exact bind (textField? h id "root") fun _ => pure rfl
  · exact fail _

theorem targetOf (h : RenamesCalls ρ R c.invoke invoke') (id : Nat) :
    Repeats ρ R (c.targetOf id) ((c.renumber ρ invoke').targetOf (ρ.table id)) := by
  refine bind (textField? h id "name") fun name => ?_
  split
  · exact fail _
  · exact fail _
  · next name _ =>
    refine bind (textField? h id "kind") fun kind => ?_
    cases kind
    case' some kind =>
      dsimp only
      cases TargetKind.ofName? kind
      case' none => refine bind (g := fun kind => kind) (fail _) fun kind => ?_
      case' some kind => refine bind (g := fun kind => kind) (pure rfl) fun kind => ?_
    case' none => refine bind (g := fun kind => kind) (pure rfl) fun kind => ?_
    all_goals
      refine bind (fieldOf h _ id "sources") fun sources => ?_
      cases sources with
      | nil => exact pure rfl
      | table sources => exact bind (items sources) fun vs => bind (asTexts vs) fun _ => pure rfl
      | _ => exact fail _

theorem describedAt (o : Operation) (position : Nat) {read : Nat → Run σ α} {read' : Nat → Run τ β}
    (h : ∀ id, Renames ρ R g (read id) (read' (ρ.table id))) :
    Renames ρ R g (c.describedAt o position read) ((c.renumber ρ invoke').describedAt o position read') := by
  refine converting position fun v => ?_
  cases v with
  | table id => exact h id
  | _ => exact fail _

theorem requestOf (h : RenamesCalls ρ R c.invoke invoke') (o : Operation) :
    Repeats ρ R (c.requestOf o) ((c.renumber ρ invoke').requestOf o) := by
  cases o with
  | showBrief => exact pure rfl
  | globalDefine => exact bind (textAt 1) fun _ => bind (converting 2 asText?) fun _ => pure rfl
  | placement => exact map (describedAt .placement 1 (placementOf h)) fun _ => rfl
  | target => exact map (describedAt .target 1 (targetOf h)) fun _ => rfl
  | _ => exact map (textAt 1) fun _ => rfl

variable [Host σ] [Host τ]

theorem request (h : RenamesCalls ρ R c.invoke invoke')
    (hperform : ∀ r, Repeats ρ R (perform r : Run σ Unit) (perform r)) (o : Operation) :
    Renames ρ R (renumberAll ρ) (c.request o) ((c.renumber ρ invoke').request o) :=
  bind (requestOf h o) fun r => bind (hperform r) fun _ => pure rfl

/-! ## All functions -/

/-- Whether requests do the same depends on the hosts. -/
theorem run (h : RenamesCalls ρ R c.invoke invoke') {b : Builtin}
    (hrequest : ∀ o, b = .request o →
      Renames ρ R (renumberAll ρ) (c.request o) ((c.renumber ρ invoke').request o)) :
    Renames ρ R (renumberAll ρ) (c.run b) ((c.renumber ρ invoke').run b) := by
  cases b with
  | type => exact type
  | tostring => exact tostring h
  | tonumber => exact tonumber
  | ipairs => exact ipairs
  | ipairsStep => exact ipairsStep h
  | select => exact select
  | error => exact error
  | pcall => exact pcall h
  | assert => exact assert
  | setmetatable => exact setmetatable
  | getmetatable => exact getmetatable
  | rawget => exact rawget
  | print => exact print h
  | format => exact format h
  | upper => exact upper
  | rep => exact rep
  | sub => exact sub
  | concat => exact concat h
  | insert => exact insert h
  | remove => exact remove h
  | sort => exact sort h
  | unpack => exact unpack h
  | access => exact access h
  | request o => exact hrequest o rfl

/-- A library function that makes no request does the same. -/
theorem runBuiltin (h : RenamesCalls ρ R invoke invoke') {b : Builtin} (hb : ∀ o, b ≠ .request o)
    (args : List Value) (caller : Caller) :
    Renames ρ R (renumberAll ρ) (runBuiltin invoke b args caller)
      (runBuiltin invoke' b (renumberAll ρ args) caller) := by
  unfold Script.runBuiltin
  rw [List.length_map]
  exact ite (raise _ _) (run h fun o ho => absurd ho (hb o))

/-- A library function that makes a request does the same if the hosts perform it alike. -/
theorem runBuiltin_of_perform (h : RenamesCalls ρ R invoke invoke')
    (hperform : ∀ r, Repeats ρ R (perform r : Run σ Unit) (perform r)) (b : Builtin) (args : List Value)
    (caller : Caller) :
    Renames ρ R (renumberAll ρ) (Script.runBuiltin invoke b args caller)
      (Script.runBuiltin invoke' b (renumberAll ρ args) caller) := by
  unfold Script.runBuiltin
  rw [List.length_map]
  exact ite (raise _ _) (run h fun o _ => request h hperform o)

end Renames

/-! ## Under the same numbers -/

namespace Mirrors

variable [Steady R]

/-- An assignment does the same if what is put into a table does. -/
theorem assignIndex (h : MirrorsCalls R invoke invoke') (caller : Caller) (object key v : Value)
    (hown : ∀ id, Mirrors R (assignOwn caller.sites id key v : Run σ Unit) (assignOwn caller.sites id key v)) :
    Mirrors R (assignIndex invoke caller object key v) (assignIndex invoke' caller object key v) := by
  have hassign := Renames.assignIndex h.renames caller object key v fun id => by
    rw [key.renumber_one, v.renumber_one]
    exact (hown id).renames fun _ => rfl
  simpa only [Value.renumber_one] using hassign.mirrors fun _ => rfl

theorem fieldOf (h : MirrorsCalls R invoke invoke') (caller : Caller) (id : Nat) (name : String) :
    Mirrors R (fieldOf invoke caller id name) (fieldOf invoke' caller id name) :=
  (Renames.fieldOf h.renames caller id name).mirrors Value.renumber_one

theorem asText (v : Value) : Mirrors R (asText v : Run σ String) (asText v) := by
  simpa only [Value.renumber_one] using (Renames.asText v).mirrors fun _ => rfl

theorem asText? (v : Value) : Mirrors R (asText? v : Run σ (Option String)) (asText? v) := by
  simpa only [Value.renumber_one] using (Renames.asText? v).mirrors fun _ => rfl

theorem asTexts (vs : List Value) : Mirrors R (asTexts vs : Run σ (List String)) (asTexts vs) := by
  simpa only [renumberAll_one] using (Renames.asTexts vs).mirrors fun _ => rfl

variable {c : Call σ}

theorem converting (position : Nat) {convert : Value → Run σ α} {convert' : Value → Run τ α}
    (h : ∀ v, Mirrors R (convert v) (convert' v)) :
    Mirrors R (c.converting position convert) ((c.within invoke').converting position convert') := by
  rw [← c.renumber_one invoke']
  refine (Renames.converting position fun v => ?_).mirrors fun _ => rfl
  rw [v.renumber_one]
  exact (h v).renames fun _ => rfl

theorem textAt (position : Nat) : Mirrors R (c.textAt position) ((c.within invoke').textAt position) :=
  converting position asText

variable [Host σ] [Host τ]

/-- A library function that makes no request does the same. -/
theorem runBuiltin (h : MirrorsCalls R invoke invoke') {b : Builtin} (hb : ∀ o, b ≠ .request o)
    (args : List Value) (caller : Caller) :
    Mirrors R (runBuiltin invoke b args caller) (runBuiltin invoke' b args caller) := by
  simpa only [renumberAll_one] using (Renames.runBuiltin h.renames hb args caller).mirrors renumberAll_one

/-- A library function that makes a request does the same if the hosts perform it alike. -/
theorem runBuiltin_of_perform (h : MirrorsCalls R invoke invoke')
    (hperform : ∀ r, Mirrors R (perform r : Run σ Unit) (perform r)) (b : Builtin) (args : List Value)
    (caller : Caller) :
    Mirrors R (Script.runBuiltin invoke b args caller) (Script.runBuiltin invoke' b args caller) := by
  have hrun := Renames.runBuiltin_of_perform h.renames (fun r => (hperform r).renames fun _ => rfl) b args
    caller
  simpa only [renumberAll_one] using hrun.mirrors renumberAll_one

end Mirrors

end BuildComposition.Script
