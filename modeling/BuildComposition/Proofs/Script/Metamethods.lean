import BuildComposition.Proofs.Script.Conversions

/-!
# Conversions without metamethods

Only a table that describes a placement or a target can have a metatable with which its conversion runs
a function of the script.  All other conversions read what is there.

## Main definitions

* `RunsNoMetamethod`: the arguments of a call are converted without a call of a function
* `Lasts`: an action that is not interrupted for good
* `IsPlain`: a value that is not a table with a metatable

## Main results

* `RunsNoMetamethod.ends`: such a conversion leaves the host as it is
* `runsNoMetamethod_of_plain`: arguments that are described without metatables are converted so
-/

namespace BuildComposition.Script

variable {σ α β : Type}

/-- The arguments of a call are converted without a call of a function: interruptions in the place of all
such calls are not met. -/
def RunsNoMetamethod [Host σ] (levels : Nat) (o : Operation) (args : List Value) (caller : Caller)
    (m : Machine σ) : Prop :=
  ∀ t, (conversion (accessWithin levels) o args caller).run m ≠ .error .exhausted t

/-- Without a call of a function, a conversion leaves the host as it is, and it gives the request that the
call makes. -/
theorem RunsNoMetamethod.ends [Host σ] {levels : Nat} {o : Operation} {args : List Value}
    {caller : Caller} {m : Machine σ} (h : RunsNoMetamethod levels o args caller m) :
    Ends (fun t => t.host = m.host) (IsRequestOf o args)
      ((conversion (callWithin levels) o args caller).run m) := by
  have hrequest := Keeps.conversion (callWithin levels) o args caller m trivial
  rcases anticipates_conversion levels o args caller m with ⟨t, ht⟩ | ⟨hsame, hends⟩
  · exact absurd ht (h t)
  rw [← hsame] at hends
  cases hrun : (conversion (callWithin levels) o args caller).run m with
  | ok r t =>
    rw [hrun] at hrequest hends
    exact ⟨hends.1, hrequest.2⟩
  | error e t =>
    rw [hrun] at hends
    exact hends

/-! ## Actions that are not interrupted for good -/

/-- From a machine with a condition, the action keeps the condition, or the script fails. -/
def Lasts (I : Machine σ → Prop) (x : Run σ α) : Prop :=
  ∀ m, I m → (∃ a t, x.run m = .ok a t ∧ I t) ∨ ∃ v t, x.run m = .error (.thrown v) t

namespace Lasts

variable {I : Machine σ → Prop}

theorem pure (a : α) : Lasts I (Pure.pure a : Run σ α) := fun m hm => .inl ⟨a, m, rfl, hm⟩

theorem load (f : Memory → α) : Lasts I (load f : Run σ α) := fun m hm => .inl ⟨_, m, rfl, hm⟩

theorem raise (sites : Sites) (message : String) : Lasts I (raise sites message : Run σ α) :=
  fun m _ => .inr ⟨_, m, rfl⟩

theorem fail (e : ScriptError) : Lasts I (fail e : Run σ α) := fun _ _ => .inr ⟨_, _, rfl⟩

theorem bind {x : Run σ α} {f : α → Run σ β} (hx : Lasts I x) (hf : ∀ a, Lasts I (f a)) :
    Lasts I (x >>= f) := by
  intro m hm
  rw [EStateM.run_bind]
  rcases hx m hm with ⟨a, t, ht, hI⟩ | ⟨v, t, ht⟩
  · rw [ht]
    exact hf a t hI
  · rw [ht]
    exact .inr ⟨v, t, rfl⟩

theorem map {x : Run σ α} (f : α → β) (hx : Lasts I x) : Lasts I (f <$> x) := by
  rw [map_eq_pure_bind]
  exact bind hx fun a => pure _

theorem ne_exhausted {x : Run σ α} {m : Machine σ} (h : Lasts I x) (hm : I m) (t : Machine σ) :
    x.run m ≠ .error .exhausted t := by
  rcases h m hm with ⟨_, _, hrun, -⟩ | ⟨_, _, hrun⟩ <;> simp [hrun]

theorem asText (v : Value) : Lasts I (asText v : Run σ String) := by
  unfold Script.asText
  split
  · exact pure _
  · exact fail _

theorem asText? (v : Value) : Lasts I (asText? v : Run σ (Option String)) := by
  unfold Script.asText?
  split
  · exact pure _
  · exact map some (asText v)

theorem asTexts (vs : List Value) : Lasts I (asTexts vs : Run σ (List String)) := by
  induction vs with
  | nil => exact pure _
  | cons v vs ih => exact bind (asText v) fun _ => bind ih fun _ => pure _

/-- What is done about a failure of the script is another failure. -/
theorem tryCatch {x : Run σ α} {handler : Fault → Run σ α} (hx : Lasts I x)
    (hhandler : ∀ v m, ∃ v' t, (handler (.thrown v)).run m = .error (.thrown v') t) :
    Lasts I (MonadExcept.tryCatch x handler) := by
  intro m hm
  rcases hx m hm with ⟨a, t, ht, hI⟩ | ⟨v, t, ht⟩
  · exact .inl ⟨a, t, run_tryCatch_of_ok ht, hI⟩
  · rw [run_tryCatch_of_error ht]
    exact .inr (hhandler v t)

variable {c : Call σ}

theorem converting (position : Nat) {convert : Value → Run σ α}
    (h : Lasts I (convert (c.arg position))) : Lasts I (c.converting position convert) :=
  tryCatch h fun _ _ => ⟨_, _, rfl⟩

theorem textAt (position : Nat) : Lasts I (c.textAt position) := converting position (asText _)

/-- An argument that is not a table describes nothing. -/
theorem describedAt (o : Operation) (position : Nat) {read : Nat → Run σ α}
    (h : ∀ id, c.arg position = .table id → Lasts I (read id)) :
    Lasts I (c.describedAt o position read) := by
  refine converting position ?_
  split
  · next id hid => exact h id hid
  · exact fail _

end Lasts

/-! ## Tables without metatables -/

theorem Memory.table_modifyTable (m : Memory) (id : Nat) (f : Table → Table) (other : Nat) :
    (m.modifyTable id f).table other =
      if id = other ∧ other < m.tables.size then f (m.table other) else m.table other := by
  simp only [table, modifyTable, altered, Array.getD_eq_getD_getElem?, Array.getElem?_modify]
  by_cases hid : id = other
  · subst hid
    by_cases hsize : id < m.tables.size
    · simp [hsize]
    · simp [hsize]
  · simp [hid]

theorem Memory.size_modifyTable (m : Memory) (id : Nat) (f : Table → Table) :
    (m.modifyTable id f).tables.size = m.tables.size := by
  simp [modifyTable, altered]

theorem Table.metatable_touch (t : Table) (k : Key) : (t.touch k).metatable = t.metatable := by
  unfold touch
  split
  · split <;> rfl
  · rfl

theorem Memory.metatable_touch (m : Memory) (id : Nat) (k : Key) (other : Nat) :
    (m.touch id k).metatable other = m.metatable other := by
  unfold touch
  split
  · split
    · rw [metatable, table_modifyTable]
      split
      · exact Table.metatable_touch _ _
      · rfl
    · rfl
  · rfl

/-- The value is not a table with a metatable. -/
def IsPlain (v : Value) (m : Machine σ) : Prop := ∀ id, v = .table id → m.memory.metatable id = none

namespace Lasts

variable {I : Machine σ → Prop} {c : Call σ} {v : Value} {id : Nat}

theorem peek (other : Nat) (key : Value) : Lasts (IsPlain v) (peek other key : Run σ Value) := by
  unfold Script.peek
  split
  · next n _ =>
    refine bind (fun m hm => .inl ⟨(), _, rfl, fun id hid => ?_⟩) fun _ => load _
    exact (Memory.metatable_touch m.memory other (.int n) id).trans (hm id hid)
  · exact load _
  · exact pure _

theorem itemsFrom (other fuel n : Nat) (read : List Value) :
    Lasts (IsPlain v) (itemsFrom other fuel n read : Run σ (List Value)) := by
  induction fuel generalizing n read with
  | zero => exact pure _
  | succ fuel ih =>
    refine bind (peek other _) fun _ => ?_
    split
    · exact pure _
    · exact ih _ _

theorem items (other : Nat) : Lasts (IsPlain v) (items other : Run σ (List Value)) :=
  itemsFrom other _ _ _

/-- A field of a table without a metatable is read where it is. -/
theorem field (hv : v = .table id) (name : String) : Lasts (IsPlain v) (c.field id name) := by
  intro m hm
  have hload : (Script.load (·.metatable id) : Run σ (Option Nat)).run m = .ok none m :=
    congrArg (EStateM.Result.ok · m) (hm id hv)
  unfold Call.field fieldOf
  rw [EStateM.run_bind, hload]
  exact peek id _ m hm

theorem textField? (hv : v = .table id) (name : String) :
    Lasts (IsPlain v) (c.textField? id name) :=
  bind (field hv name) asText?

theorem placementOf (hv : v = .table id) : Lasts (IsPlain v) (c.placementOf id) := by
  refine bind (textField? hv "kind") fun kind => ?_
  split
  · exact fail _
  · exact pure _
  · exact bind (textField? hv "subdir") fun _ => pure _
  · exact bind (textField? hv "root") fun _ => pure _
  · exact fail _

theorem targetOf (hv : v = .table id) : Lasts (IsPlain v) (c.targetOf id) := by
  refine bind (textField? hv "name") fun name => ?_
  split
  · exact fail _
  · exact fail _
  · refine bind (textField? hv "kind") fun kind => ?_
    dsimp only
    -- wherever the kind comes from, the sources are read next
    split <;> (try split) <;>
      refine bind (by first | exact pure _ | exact fail _) fun kind => ?_
    all_goals
      refine bind (field hv "sources") fun sources => ?_
      split
      · exact pure _
      · exact bind (items _) fun _ => bind (asTexts _) fun _ => pure _
      · exact fail _

theorem requestOf {o : Operation} (h : o = .placement ∨ o = .target → I = IsPlain (c.arg 1)) :
    Lasts I (c.requestOf o) := by
  cases o with
  | globalDefine =>
    exact bind (textAt 1) fun _ => bind (converting 2 (asText? _)) fun _ => pure _
  | showBrief => exact pure _
  | placement =>
    obtain rfl := h (.inl rfl)
    exact map _ (describedAt _ 1 fun _ hid => placementOf hid)
  | target =>
    obtain rfl := h (.inr rfl)
    exact map _ (describedAt _ 1 fun _ hid => targetOf hid)
  | _ => exact map _ (textAt 1)

end Lasts

/-- Only the table that describes a placement or a target can have its conversion run a function. -/
theorem runsNoMetamethod_of_plain [Host σ] {levels : Nat} {o : Operation} {args : List Value}
    {caller : Caller} {m : Machine σ}
    (h : o = .placement ∨ o = .target → IsPlain (args.getD 0 .nil) m) :
    RunsNoMetamethod levels o args caller m := by
  intro t
  unfold conversion
  dsimp only
  split
  · exact Lasts.ne_exhausted (I := fun _ => True) (.raise _ _) trivial t
  · by_cases ho : o = .placement ∨ o = .target
    · exact Lasts.ne_exhausted (I := IsPlain (args.getD 0 .nil)) (.requestOf fun _ => rfl) (h ho) t
    · exact Lasts.ne_exhausted (I := fun _ => True) (.requestOf fun ho' => absurd ho' ho) trivial t

end BuildComposition.Script
