import BuildComposition.Proofs.Script.Invariants
import BuildComposition.Script.Execution

/-!
# Conversions of arguments

The functions of the table `prj` convert their arguments before the host is asked.  A conversion reads
fields of tables, and where a metatable hands this over to a function it runs that function, which can
make requests of its own.  A conversion that calls no such function leaves the host as it is.

That no function is called is seen by interrupting the script wherever one would be: the conversion
with these interruptions is compared with the one that is made.

## Main definitions

* `KeepsHost`: an action that leaves the host as it is
* `Anticipates x y`: unless `x` is interrupted, `y` does the same, and both leave the host as it is
* `accessWithin`: calls that serve accesses to tables, with an interruption in the place of a function
* `conversion`: a call of a function of the table `prj` until the host is asked
* `IsRequestOf`: what a conversion gives

## Main results

* `runBuiltin_request`: the host is asked when the arguments have been converted
* `anticipates_conversion`: the conversion with interruptions anticipates the one that is made
* `Keeps.conversion`: a conversion gives the request that the call makes
-/

namespace BuildComposition.Script

variable {σ α β : Type}

/-! ## Actions that leave the host as it is -/

/-- The action leaves the host as it is, however it ends. -/
def KeepsHost (x : Run σ α) : Prop := ∀ host, KeepsAny (fun m => m.host = host) x

namespace KeepsHost

theorem pure (a : α) : KeepsHost (Pure.pure a : Run σ α) := fun _ => .pure trivial

theorem throw (fault : Fault) : KeepsHost (MonadExcept.throw fault : Run σ α) := fun _ => .throw fault

theorem bind {x : Run σ α} {f : α → Run σ β} (hx : KeepsHost x) (hf : ∀ a, KeepsHost (f a)) :
    KeepsHost (x >>= f) :=
  fun host => .bind (hx host) fun a _ => hf a host

theorem map {x : Run σ α} (f : α → β) (hx : KeepsHost x) : KeepsHost (f <$> x) :=
  fun host => .map (hx host) fun _ _ => trivial

theorem load (f : Memory → α) : KeepsHost (load f : Run σ α) := fun _ => .load fun _ _ => trivial

theorem raise (sites : Sites) (message : String) : KeepsHost (raise sites message : Run σ α) :=
  throw _

theorem fail (e : ScriptError) : KeepsHost (fail e : Run σ α) := fun _ => .fail e fun _ h => h

theorem peek (id : Nat) (key : Value) : KeepsHost (peek id key : Run σ Value) := by
  unfold Script.peek
  split
  · exact bind (fun _ => .store fun _ h => h) fun _ => load _
  · exact load _
  · exact pure _

theorem itemsFrom (id fuel n : Nat) (read : List Value) :
    KeepsHost (itemsFrom id fuel n read : Run σ (List Value)) := by
  induction fuel generalizing n read with
  | zero => exact pure _
  | succ fuel ih =>
    refine bind (peek id _) fun v => ?_
    split
    · exact pure _
    · exact ih _ _

theorem items (id : Nat) : KeepsHost (items id : Run σ (List Value)) :=
  itemsFrom id _ _ _

theorem asText (v : Value) : KeepsHost (asText v : Run σ String) := by
  unfold Script.asText
  split
  · exact pure _
  · exact fail _

theorem asText? (v : Value) : KeepsHost (asText? v : Run σ (Option String)) := by
  unfold Script.asText?
  split
  · exact pure _
  · exact map some (asText v)

theorem asTexts (vs : List Value) : KeepsHost (asTexts vs : Run σ (List String)) := by
  induction vs with
  | nil => exact pure _
  | cons v vs ih => exact bind (asText v) fun _ => bind ih fun _ => pure _

theorem ownValue (key v : Value) : KeepsHost (ownValue key v : Run σ Value) := by
  cases v with
  | table id => exact peek id key
  | _ => exact pure _

theorem handler? (event : String) (sites : Sites) (v : Value) :
    KeepsHost (handler? event sites v : Run σ (Option Value)) := by
  refine bind (load _) fun h => ?_
  split
  · split
    · exact pure _
    · exact raise _ _
  · exact pure _

theorem reach (event : String) (sites : Sites) (key : Value) (fuel : Nat) (v : Value) :
    KeepsHost (reach event sites key fuel v : Run σ Reached) := by
  induction fuel generalizing v with
  | zero =>
    refine bind (ownValue key v) fun own => ?_
    split
    · exact raise _ _
    · exact pure _
  | succ fuel ih =>
    refine bind (ownValue key v) fun own => ?_
    split
    · refine bind (handler? event sites v) fun handler => ?_
      split <;> first | exact ih _ | exact pure _
    · exact pure _

end KeepsHost

/-! ## Actions that are anticipated -/

/-- Unless the first action is interrupted for good, the second one does the same, and both leave the
host as it is. -/
def Anticipates (x y : Run σ α) : Prop :=
  ∀ m, (∃ t, x.run m = .error .exhausted t) ∨
    y.run m = x.run m ∧ Ends (fun t => t.host = m.host) (fun _ => True) (x.run m)

namespace Anticipates

theorem same {x : Run σ α} (h : KeepsHost x) : Anticipates x x :=
  fun m => .inr ⟨rfl, h m.host m rfl⟩

theorem interrupted (y : Run σ α) : Anticipates (throw .exhausted) y := fun m => .inl ⟨m, rfl⟩

theorem bind {x y : Run σ α} {f g : α → Run σ β} (hxy : Anticipates x y)
    (hfg : ∀ a, Anticipates (f a) (g a)) : Anticipates (x >>= f) (y >>= g) := by
  intro m
  rw [EStateM.run_bind, EStateM.run_bind]
  rcases hxy m with ⟨t, ht⟩ | ⟨hsame, hends⟩
  · exact .inl ⟨t, by rw [ht]⟩
  rw [hsame]
  cases hx : x.run m with
  | error e t =>
    rw [hx] at hends
    exact .inr ⟨rfl, hends⟩
  | ok a t =>
    rw [hx] at hends
    rw [← hends.1]
    exact hfg a t

theorem andThen {x y : Run σ α} {f : α → Run σ β} (hxy : Anticipates x y)
    (hf : ∀ a, KeepsHost (f a)) : Anticipates (x >>= f) (y >>= f) :=
  bind hxy fun a => same (hf a)

theorem map {x y : Run σ α} (f : α → β) (h : Anticipates x y) : Anticipates (f <$> x) (f <$> y) := by
  rw [map_eq_pure_bind, map_eq_pure_bind]
  exact andThen h fun _ => .pure _

/-- What follows a failure must not follow an interruption. -/
theorem tryCatch {x y : Run σ α} {handler : Fault → Run σ α} (hxy : Anticipates x y)
    (hexhausted : handler .exhausted = throw .exhausted) (hhandler : ∀ e, KeepsHost (handler e)) :
    Anticipates (MonadExcept.tryCatch x handler) (MonadExcept.tryCatch y handler) := by
  intro m
  rcases hxy m with ⟨t, ht⟩ | ⟨hsame, hends⟩
  · rw [run_tryCatch_of_error ht, hexhausted]
    exact .inl ⟨t, rfl⟩
  · refine .inr ⟨?_, hends.tryCatch fun fault t ht => hhandler fault _ t ht⟩
    cases hx : x.run m with
    | ok a t => rw [run_tryCatch_of_ok hx, run_tryCatch_of_ok (hsame.trans hx)]
    | error fault t => rw [run_tryCatch_of_error hx, run_tryCatch_of_error (hsame.trans hx)]

theorem index {invoke invoke' : Invoke σ}
    (hinvoke : ∀ f args caller, Anticipates (invoke f args caller) (invoke' f args caller))
    (caller : Caller) (key v : Value) :
    Anticipates (index invoke caller key v) (index invoke' caller key v) := by
  refine bind (same (.reach _ _ _ _ _)) fun reached => ?_
  split
  · exact same (.pure _)
  · exact andThen (hinvoke _ _ _) fun _ => .pure _

section

variable {c : Call σ} {invoke : Invoke σ}

theorem converting (position : Nat) {convert convert' : Value → Run σ α}
    (h : ∀ v, Anticipates (convert v) (convert' v)) :
    Anticipates (c.converting position convert)
      (Call.converting { c with invoke } position convert') := by
  refine tryCatch (h _) rfl fun fault => ?_
  cases fault with
  | thrown v => exact .bind (.load _) fun _ => .fail _
  | exhausted => exact .throw _

theorem textAt (position : Nat) :
    Anticipates (c.textAt position) (Call.textAt { c with invoke } position) :=
  converting position fun v => same (.asText v)

theorem describedAt (o : Operation) (position : Nat) {read read' : Nat → Run σ α}
    (h : ∀ id, Anticipates (read id) (read' id)) : Anticipates (c.describedAt o position read)
      (Call.describedAt { c with invoke } o position read') := by
  refine converting position fun v => ?_
  split
  · exact h _
  · exact same (.fail _)

variable (hinvoke : ∀ f args caller, Anticipates (c.invoke f args caller) (invoke f args caller))

include hinvoke

theorem field (id : Nat) (name : String) :
    Anticipates (c.field id name) (Call.field { c with invoke } id name) := by
  refine bind (same (.load _)) fun mt => ?_
  split
  · exact same (.peek _ _)
  · exact andThen (hinvoke _ _ _) fun _ => .pure _

theorem textField? (id : Nat) (name : String) :
    Anticipates (c.textField? id name) (Call.textField? { c with invoke } id name) :=
  andThen (field hinvoke id name) fun v => .asText? v

theorem placementOf (id : Nat) :
    Anticipates (c.placementOf id) (Call.placementOf { c with invoke } id) := by
  refine bind (textField? hinvoke id "kind") fun kind => ?_
  split
  · exact same (.fail _)
  · exact same (.pure _)
  · exact andThen (textField? hinvoke id "subdir") fun _ => .pure _
  · exact andThen (textField? hinvoke id "root") fun _ => .pure _
  · exact same (.fail _)

theorem targetOf (id : Nat) :
    Anticipates (c.targetOf id) (Call.targetOf { c with invoke } id) := by
  refine bind (textField? hinvoke id "name") fun name => ?_
  split
  · exact same (.fail _)
  · exact same (.fail _)
  · refine bind (textField? hinvoke id "kind") fun kind => ?_
    dsimp only
    -- wherever the kind comes from, the sources are read next
    split <;> (try split) <;>
      refine bind (same (by first | exact .pure _ | exact .fail _)) fun kind => ?_
    all_goals
      refine bind (field hinvoke id "sources") fun sources => ?_
      split
      · exact same (.pure _)
      · exact same (.bind (.items _) fun _ => .bind (.asTexts _) fun _ => .pure _)
      · exact same (.fail _)

theorem requestOf (o : Operation) :
    Anticipates (c.requestOf o) (Call.requestOf { c with invoke } o) := by
  cases o with
  | globalDefine =>
    exact bind (textAt 1) fun _ => bind (converting 2 fun v => same (.asText? v)) fun _ =>
      same (.pure _)
  | showBrief => exact same (.pure _)
  | placement => exact map _ (describedAt _ _ (placementOf hinvoke))
  | target => exact map _ (describedAt _ _ (targetOf hinvoke))
  | _ => exact map _ (textAt 1)

end

variable [Host σ]

theorem access {invoke invoke' : Invoke σ}
    (hinvoke : ∀ f args caller, Anticipates (invoke f args caller) (invoke' f args caller))
    (args : List Value) (caller : Caller) : Anticipates (runBuiltin invoke .access args caller)
      (runBuiltin invoke' .access args caller) := by
  unfold runBuiltin
  dsimp only
  split
  · exact same (.raise _ _)
  · exact andThen (index hinvoke _ _ _) fun _ => .pure _

end Anticipates

/-! ## Conversions -/

/-- The end of `targetOf`, when name and kind are known: the sources are read. -/
def Call.targetWith (c : Call σ) (id : Nat) (name : String) (kind : TargetKind) :
    Run σ BuildComposition.Target := do
  match ← c.field id "sources" with
  | .nil => return ⟨name, kind, []⟩
  | .table sources => return ⟨name, kind, ← asTexts (← items sources)⟩
  | _ => fail (.description .sourcesNotList)

/-- A call of a function of the table `prj` until the host is asked: there is room for it on the stack,
and the arguments are converted. -/
def conversion (invoke : Invoke σ) (o : Operation) (args : List Value) (caller : Caller) :
    Run σ Request :=
  let height := caller.height + 1 + args.length
  if maxStack < height + libraryRoom then raise caller.sites "stack overflow"
  else Call.requestOf ⟨invoke, (Builtin.request o).name, args, caller.sites, height⟩ o

/-- The text that a request has from the first argument of a call. -/
def firstText? : Request → Option String
  | .globalIncludePath t | .globalCompilerOption t | .globalLinkerOption t | .globalDefine t _
  | .cppStd t | .runtimeMode t | .includePath t | .compilerOption t | .linkerOption t | .lib t
  | .required t => some t
  | .showBrief | .placement _ | .target _ => none

/-- A value as a text, if it is not `nil`. -/
def optionalTextOf : Value → Except ConversionFault (Option String)
  | .nil => .ok none
  | v => (textOf v).map some

/-- The request is one that a call of an operation with such arguments makes. -/
structure IsRequestOf (o : Operation) (args : List Value) (r : Request) : Prop where
  operation_eq : r.operation = o
  text_eq : ∀ t ∈ firstText? r, textOf (args.getD 0 .nil) = .ok t
  value_eq : ∀ name value, r = .globalDefine name value → optionalTextOf (args.getD 1 .nil) = .ok value

namespace Keeps

/-- Where no condition is asked for, every action keeps it. -/
theorem trivially (x : Run σ α) : Keeps (fun _ => True) (fun _ => True) x := by
  intro m _
  cases x.run m <;> simp [Ends]

theorem converting {c : Call σ} (position : Nat) {P : α → Prop} {convert : Value → Run σ α}
    (h : Keeps (fun _ => True) P (convert (c.arg position))) :
    Keeps (fun _ => True) P (c.converting position convert) := by
  refine tryCatch h fun fault => ?_
  cases fault with
  | thrown v => exact (trivially _).bind fun _ _ => fail _ fun _ _ => trivial
  | exhausted => exact throw _

theorem asText (v : Value) :
    Keeps (fun _ => True) (fun t => textOf v = .ok t) (asText v : Run σ String) := by
  unfold Script.asText
  split
  · next h => exact pure h
  · exact fail _ fun _ _ => trivial

theorem asText? (v : Value) :
    Keeps (fun _ => True) (fun t => optionalTextOf v = .ok t) (asText? v : Run σ (Option String)) := by
  cases v with
  | nil => exact pure rfl
  | _ =>
    exact (asText _).map fun t ht => by simp only [optionalTextOf, ht, Except.map]

/-- A conversion gives the request that the call makes. -/
theorem conversion (invoke : Invoke σ) (o : Operation) (args : List Value) (caller : Caller) :
    Keeps (fun _ => True) (IsRequestOf o args) (conversion invoke o args caller : Run σ Request) := by
  unfold Script.conversion
  dsimp only
  split
  · exact raise _ _
  · cases o with
    | globalDefine =>
      exact (converting 1 (asText _)).bind fun _ ht => (converting 2 (asText? _)).bind fun _ hv =>
        pure ⟨rfl, by rintro _ ⟨⟩; exact ht, by rintro _ _ ⟨⟩; exact hv⟩
    | showBrief => exact pure ⟨rfl, by rintro _ ⟨⟩, by rintro _ _ ⟨⟩⟩
    | placement | target =>
      exact (trivially _).map fun _ _ => ⟨rfl, by rintro _ ⟨⟩, by rintro _ _ ⟨⟩⟩
    | _ =>
      exact (converting 1 (asText _)).map fun _ ht =>
        ⟨rfl, by rintro _ ⟨⟩; exact ht, by rintro _ _ ⟨⟩⟩

end Keeps

section

variable [Host σ]

/-- A call as far as it serves accesses to tables, where so many more levels may follow.  Wherever an
access is handed over to a function, the script is interrupted. -/
def accessWithin : Nat → Invoke σ
  | 0 => fun _ _ caller => raise caller.sites "C stack overflow"
  | levels + 1 => fun f args caller =>
    match f with
    | .builtin .access => runBuiltin (accessWithin levels) .access args caller
    | _ => throw .exhausted

theorem anticipates_accessWithin (levels : Nat) (f : Value) (args : List Value) (caller : Caller) :
    Anticipates (accessWithin levels f args caller : Run σ (List Value))
      (callWithin levels f args caller) := by
  induction levels generalizing f args caller with
  | zero => exact .same (.raise _ _)
  | succ levels ih =>
    unfold accessWithin
    split
    · exact .access ih args caller
    · exact .interrupted _

/-- The host is asked when the arguments have been converted. -/
theorem runBuiltin_request (invoke : Invoke σ) (o : Operation) (args : List Value)
    (caller : Caller) : runBuiltin invoke (.request o) args caller = do
      perform (← conversion invoke o args caller)
      return [] := by
  unfold runBuiltin conversion
  dsimp only
  split <;> rfl

theorem anticipates_conversion (levels : Nat) (o : Operation) (args : List Value)
    (caller : Caller) : Anticipates (conversion (accessWithin levels) o args caller : Run σ Request)
      (conversion (callWithin levels) o args caller) := by
  unfold conversion
  dsimp only
  split
  · exact .same (.raise _ _)
  · exact .requestOf (anticipates_accessWithin levels) o

end

end BuildComposition.Script
