import BuildComposition.Proofs.Script.TableContents
import BuildComposition.Script.Assembly.Term

/-!
# Assembly that concerns no variable

Most of what is done to assemble a script emits instructions, completes them and deals with registers.  It
puts no variable into scope, captures none and gives no captured variable a value.  What does so is left:
names, functions, declarations and assignments.

## Main definitions

* `Assembly.Drafts.Quiet`: nothing is done about variables
* `Assembly.Quiet`: an action on drafts that does nothing about variables

## Main results

* `Assembly.Quiet.toNext`, `Assembly.Quiet.toAny`: values are fetched
* `Assembly.Quiet.goIfTrue`, `Assembly.Quiet.complete`: conditions and operators
* `Assembly.Quiet.leave`: the end of a block
-/

namespace BuildComposition.Script

namespace Instruction

/-! ## Instructions that are completed -/

variable {i : Instruction} {cell source : Nat}

theorem eq_assign_of_withTarget {target : Nat} (h : i.withTarget target = .assign cell source) :
    i = .assign cell source := by
  cases i <;> first | exact h | cases h

theorem eq_assign_of_withDestination {dest : Nat} (h : i.withDestination dest = .assign cell source) :
    i = .assign cell source := by
  cases i <;> first | exact h | cases h

theorem eq_assign_of_withResults {count : Option Nat} (h : i.withResults count = .assign cell source) :
    i = .assign cell source := by
  cases i <;> first | exact h | cases h

theorem eq_assign_of_asTail (h : i.asTail = .assign cell source) : i = .assign cell source := by
  cases i <;> first | exact h | cases h

theorem eq_assign_of_negated (h : i.negated = .assign cell source) : i = .assign cell source := by
  cases i <;> first | exact h | cases h

end Instruction

namespace Assembly

/-! ## Drafts -/

/-- The function captures what it did, and there are no further variables in scope, no further functions in
it and no further assignments to captured variables. -/
structure Draft.Quiet (d e : Draft) : Prop where
  captures_eq : e.captures = d.captures
  functions_eq : e.functions = d.functions
  locals_subset : e.locals ⊆ d.locals
  assigns : ∀ cell source, .assign cell source ∈ e.instructions → .assign cell source ∈ d.instructions

/-- Nothing was done about variables, neither in the function nor in those around it. -/
structure Drafts.Quiet (d e : Drafts) : Prop where
  current : d.current.Quiet e.current
  outer_eq : e.outer = d.outer

theorem Draft.Quiet.trans {d e f : Draft} (h : d.Quiet e) (h' : e.Quiet f) : d.Quiet f where
  captures_eq := h'.captures_eq.trans h.captures_eq
  functions_eq := h'.functions_eq.trans h.functions_eq
  locals_subset := List.Subset.trans h'.locals_subset h.locals_subset
  assigns cell source hmem := h.assigns cell source (h'.assigns cell source hmem)

/-- Only registers, constants and blocks have changed. -/
theorem Draft.Quiet.of_eq {d e : Draft} (hcaptures : e.captures = d.captures)
    (hfunctions : e.functions = d.functions) (hlocals : e.locals = d.locals)
    (hinstructions : e.instructions = d.instructions) : d.Quiet e :=
  ⟨hcaptures, hfunctions, hlocals ▸ List.Subset.refl _, fun _ _ h => hinstructions ▸ h⟩

/-- The action does nothing about variables, and what it gives satisfies a condition. -/
def Quiet {α : Type} (Q : α → Prop) (act : Assembly α) : Prop :=
  ∀ d a e, act.run d = some (a, e) → d.Quiet e ∧ Q a

/-- An action of which nothing is needed but that it does nothing about variables. -/
abbrev QuietAny {α : Type} (act : Assembly α) : Prop := Quiet (fun _ => True) act

namespace Quiet

variable {α β : Type} {P Q : α → Prop} {R : β → Prop}

theorem pure {a : α} (h : Q a) : Quiet Q (Pure.pure a : Assembly α) := by
  intro d b e hrun
  cases hrun
  exact ⟨⟨.of_eq rfl rfl rfl rfl, rfl⟩, h⟩

theorem bind {x : Assembly α} {f : α → Assembly β} (hx : Quiet Q x) (hf : ∀ a, Q a → Quiet R (f a)) :
    Quiet R (x >>= f) := by
  intro d b e hrun
  rw [StateT.run_bind] at hrun
  obtain ⟨⟨a, mid⟩, hfirst, hrest⟩ := Option.bind_eq_some_iff.mp hrun
  obtain ⟨hmid, ha⟩ := hx d a mid hfirst
  obtain ⟨hend, hb⟩ := hf a ha mid b e hrest
  exact ⟨⟨hmid.current.trans hend.current, hend.outer_eq.trans hmid.outer_eq⟩, hb⟩

theorem pureThen {a : α} {f : α → Assembly β} (h : Quiet R (f a)) : Quiet R (Pure.pure a >>= f) := by
  rwa [pure_bind]

/-- What the first action gives does not matter. -/
theorem andThen {x : Assembly α} {y : Assembly β} (hx : QuietAny x) (hy : Quiet R y) :
    Quiet R (x >>= fun _ => y) :=
  bind hx fun _ _ => hy

theorem mono {x : Assembly α} (hx : Quiet P x) (h : ∀ a, P a → Q a) : Quiet Q x :=
  fun d a e hrun => (hx d a e hrun).imp_right (h a)

theorem any {x : Assembly α} (hx : Quiet Q x) : QuietAny x := hx.mono fun _ _ => trivial

theorem failure : Quiet Q (Alternative.failure : Assembly α) := by
  intro d a e hrun
  cases hrun

theorem discard {x : Assembly α} (hx : Quiet Q x) : QuietAny (Functor.discard x) :=
  bind hx fun _ _ => pure trivial

theorem map {x : Assembly α} {f : α → β} (hx : Quiet Q x) (h : ∀ a, Q a → R (f a)) :
    Quiet R (f <$> x) := by
  rw [map_eq_pure_bind]
  exact bind hx fun a ha => pure (h a ha)

theorem ite {p : Prop} [Decidable p] {x y : Assembly α} (hx : Quiet Q x) (hy : Quiet Q y) :
    Quiet Q (if p then x else y) := by
  split
  · exact hx
  · exact hy

/-- An action that is only done under a condition, and what follows in any case. -/
theorem doIf {p : Prop} [Decidable p] {x : Assembly Unit} {f : Unit → Assembly α} (hx : QuietAny x)
    (hf : ∀ u, Quiet Q (f u)) : Quiet Q (if p then x >>= f else f ()) :=
  ite (bind hx fun u _ => hf u) (hf ())

/-- An action that is left out under a condition, and what follows in any case. -/
theorem skipIf {p : Prop} [Decidable p] {x : Assembly Unit} {f : Unit → Assembly α} (hx : QuietAny x)
    (hf : ∀ u, Quiet Q (f u)) : Quiet Q (if p then f () else x >>= f) :=
  ite (hf ()) (bind hx fun u _ => hf u)

/-- A part of the draft is looked at. -/
theorem part (f : Draft → α) : QuietAny (Assembly.part f) := by
  intro d a e hrun
  cases hrun
  exact ⟨⟨.of_eq rfl rfl rfl rfl, rfl⟩, trivial⟩

theorem change {f : Draft → Draft} (h : ∀ d : Draft, d.Quiet (f d)) : QuietAny (Assembly.change f) := by
  intro d a e hrun
  cases hrun
  exact ⟨⟨h d.current, rfl⟩, trivial⟩

/-! ## Instructions -/

theorem emitAt (line : Nat) {i : Instruction} (h : ∀ cell source, i ≠ .assign cell source) :
    QuietAny (Assembly.emitAt line i) := by
  intro d a e hrun
  cases hrun
  refine ⟨⟨⟨rfl, rfl, List.Subset.refl _, fun cell source hmem => ?_⟩, rfl⟩, trivial⟩
  rcases Array.mem_push.mp hmem with hmem | heq
  · exact hmem
  · exact absurd heq.symm (h cell source)

theorem emit {i : Instruction} (h : ∀ cell source, i ≠ .assign cell source) :
    QuietAny (Assembly.emit i) := emitAt 0 h

theorem alter (place : Nat) {f : Instruction → Instruction}
    (h : ∀ i cell source, f i = .assign cell source → i = .assign cell source) :
    QuietAny (Assembly.alter place f) := by
  refine change fun d => ⟨rfl, rfl, List.Subset.refl _, fun cell source hmem => ?_⟩
  rcases mem_altered hmem with hmem | ⟨i, hi, heq⟩
  · exact hmem
  · exact h i cell source heq.symm ▸ hi

theorem instruction? (place : Nat) : QuietAny (Assembly.instruction? place) := part _

theorem dropLast : QuietAny Assembly.dropLast := by
  refine change fun d => ⟨rfl, rfl, List.Subset.refl _, fun cell source hmem => ?_⟩
  rw [Array.mem_def, Array.toList_pop] at hmem
  exact Array.mem_def.mpr (List.dropLast_subset _ hmem)

theorem label : QuietAny Assembly.label := by
  intro d a e hrun
  cases hrun
  exact ⟨⟨.of_eq rfl rfl rfl rfl, rfl⟩, trivial⟩

theorem patch (target : Nat) (places : List Nat) : QuietAny (Assembly.patch target places) := by
  induction places with
  | nil => exact pure trivial
  | cons place rest ih =>
    exact (alter place fun _ _ _ => Instruction.eq_assign_of_withTarget).andThen ih

theorem patchHere (places : List Nat) : QuietAny (Assembly.patchHere places) :=
  bind label fun _ _ => patch _ places

/-! ## Registers and constants -/

theorem require (count : Nat) : QuietAny (Assembly.require count) := by
  unfold Assembly.require
  refine bind (part _) fun free _ => bind (part _) fun size _ => ?_
  split
  · split
    · exact change fun _ => .of_eq rfl rfl rfl rfl
    · exact failure
  · exact pure trivial

theorem reserve (count : Nat) : QuietAny (Assembly.reserve count) :=
  (require count).andThen (change fun _ => .of_eq rfl rfl rfl rfl)

theorem release (r : Nat) : QuietAny (Assembly.release r) := by
  refine change fun d => ?_
  split <;> exact .of_eq rfl rfl rfl rfl

theorem releaseAll : QuietAny Assembly.releaseAll := change fun _ => .of_eq rfl rfl rfl rfl

theorem useConstant (v : Constant) : QuietAny (Assembly.useConstant v) := by
  unfold Assembly.useConstant
  refine bind (part _) fun constants _ => ?_
  split
  · exact pure trivial
  · split
    · exact andThen (change fun _ => .of_eq rfl rfl rfl rfl) (pure trivial)
    · exact pure trivial

/-! ## Blocks -/

theorem enter (isLoop : Bool) : QuietAny (Assembly.enter isLoop) :=
  change fun _ => .of_eq rfl rfl rfl rfl

theorem changeBlock (f : Block → Block) : QuietAny (Assembly.changeBlock f) := by
  refine change fun d => ?_
  split <;> exact .of_eq rfl rfl rfl rfl

theorem currentBlock : QuietAny Assembly.currentBlock := bind (part _) fun _ _ => pure trivial

/-- Variables only go out of scope. -/
theorem leave : QuietAny Assembly.leave := by
  refine bind currentBlock fun b _ => andThen (change fun d => ?_) ?_
  · exact ⟨rfl, rfl, List.drop_subset _ _, fun _ _ h => h⟩
  · refine doIf (patchHere _) fun _ => ?_
    refine ite ((emit (by nofun)).discard.andThen ?_) releaseAll
    exact skipIf (changeBlock _) fun _ => releaseAll

end Quiet

/-! ## Operands -/

/-- The value does not stand in a captured variable. -/
def Operand.IsApart (e : Operand) : Prop := ∀ c, e.place ≠ .cell c

namespace Quiet

theorem free (e : Operand) : QuietAny (Assembly.free e) := by
  unfold Assembly.free
  split
  · exact release _
  · exact pure trivial

theorem freeArg (arg : Arg) : QuietAny (Assembly.freeArg arg) := by
  unfold Assembly.freeArg
  split
  · exact release _
  · exact pure trivial

/-- Where the value stands is only changed for a call or for further arguments. -/
theorem single (e : Operand) :
    Quiet (fun a => ∀ c, a.place = .cell c → e.place = .cell c) (Assembly.single e) := by
  unfold Assembly.single
  split
  · exact pure nofun
  · exact (alter _ fun _ _ _ => Instruction.eq_assign_of_withResults).andThen (pure nofun)
  · exact pure fun _ h => h

theorem discharge (e : Operand) : Quiet Operand.IsApart (Assembly.discharge e) := by
  unfold Assembly.discharge
  split
  · exact pure nofun
  · exact bind (emit (by nofun)) fun _ _ => pure nofun
  · exact bind (emitAt _ (by nofun)) fun _ _ => pure nofun
  · exact (freeArg _).andThen ((release _).andThen (bind (emitAt _ (by nofun)) fun _ _ => pure nofun))
  -- a captured variable was read above, and no other operand becomes one
  · next hcell _ _ => exact (single e).mono fun a ha c hplace => hcell c (ha c hplace)

theorem putInto (r : Nat) (e : Operand) : QuietAny (Assembly.putInto r e) := by
  have hmove : ∀ (source : Arg) (a : Operand), QuietAny (do
      Functor.discard (Assembly.emit (.move r source))
      return a) :=
    fun source a => (emit (by nofun)).discard.andThen (pure trivial)
  refine bind (discharge e) fun e _ => ?_
  dsimp only
  split
  · exact pure trivial
  · split
    · exact hmove _ _
    · exact (useConstant _).discard.andThen (hmove _ _)
  · exact (alter _ fun _ _ _ => Instruction.eq_assign_of_withDestination).andThen (pure trivial)
  · split
    · exact pure trivial
    · exact hmove _ _
  · exact pure trivial

theorem deliver (r target made : Nat) (places : List Nat) :
    QuietAny (Assembly.deliver r target made places) := by
  induction places with
  | nil => exact pure trivial
  | cons place rest ih =>
    refine bind (instruction? place) fun i _ => ?_
    split
    · refine ite ?_ ?_
      · exact (alter place fun _ _ _ h => by cases h).andThen ih
      · exact (alter place fun _ _ _ h => by cases h).andThen ih
    · exact (alter place fun _ _ _ => Instruction.eq_assign_of_withTarget).andThen ih

theorem needsValue (places : List Nat) : QuietAny (Assembly.needsValue places) := by
  induction places with
  | nil => exact pure trivial
  | cons place rest ih =>
    refine bind (instruction? place) fun i _ => ?_
    split
    · exact ih
    · exact pure trivial

theorem finishIn (r : Nat) (e : Operand) : QuietAny (Assembly.finishIn r e) := by
  refine bind (putInto r e) fun e _ => ?_
  extract_lets yes made deliverAll makeBoth
  have hdeliver : ∀ made, QuietAny (deliverAll () made) :=
    fun _ => bind label fun _ _ => (deliver r _ _ _).andThen (deliver r _ _ _)
  refine ite (pure trivial) (bind (needsValue _) fun _ _ => bind (needsValue _) fun _ _ => ?_)
  refine ite ?_ (hdeliver made)
  have hmake : ∀ past, QuietAny (makeBoth past) :=
    fun past => label.discard.andThen <| bind (emit (by nofun)) fun _ _ =>
      bind (emit (by nofun)) fun _ _ => label.discard.andThen <| bind (emit (by nofun)) fun _ _ =>
        (patchHere _).andThen (hdeliver _)
  split
  · exact pureThen (hmake _)
  · exact bind (emit (by nofun)) fun _ _ => pureThen (hmake _)

theorem toNext (e : Operand) : QuietAny (Assembly.toNext e) :=
  bind (discharge e) fun e _ => (free e).andThen ((reserve 1).andThen
    (bind (part _) fun _ _ => (finishIn _ e).andThen (pure trivial)))

theorem toAny (e : Operand) : QuietAny (Assembly.toAny e) := by
  refine bind (discharge e) fun e _ => ?_
  split
  · refine ite (pure trivial) (bind (part _) fun _ _ => ?_)
    exact ite ((finishIn _ e).andThen (pure trivial)) (toNext e)
  · exact toNext e

theorem toAnyOrCell (e : Operand) : QuietAny (Assembly.toAnyOrCell e) := by
  unfold Assembly.toAnyOrCell
  split
  · exact pure trivial
  · exact bind (toAny e) fun _ _ => pure trivial

theorem toValue (e : Operand) : QuietAny (Assembly.toValue e) := by
  unfold Assembly.toValue
  split
  · exact bind (toAny e) fun _ _ => pure trivial
  · exact bind (toAny e) fun _ _ => pure trivial
  · exact (discharge e).any

theorem heldConstant? (e : Operand) : QuietAny (Assembly.heldConstant? e) := by
  unfold Assembly.heldConstant?
  split
  · exact bind (useConstant _) fun _ _ => pure trivial
  · exact pure trivial

theorem toArg (e : Operand) : QuietAny (Assembly.toArg e) := by
  refine bind (heldConstant? e) fun held _ => ?_
  cases held with
  | some v => exact pure trivial
  | none => exact bind (toAny e) fun _ _ => pure trivial

theorem setResults (e : Operand) (count : Option Nat) : QuietAny (Assembly.setResults e count) := by
  unfold Assembly.setResults
  split
  · exact alter _ fun _ _ _ => Instruction.eq_assign_of_withResults
  · refine bind (part _) fun r _ => andThen (alter _ fun i cell source h => ?_) (reserve 1)
    exact Instruction.eq_assign_of_withResults (Instruction.eq_assign_of_withDestination h)
  · exact pure trivial

/-! ## Fields -/

theorem accessKey (key : Operand) (held : Bool) : QuietAny (Assembly.accessKey key held) := by
  have hregister : QuietAny (do return Arg.register (← Assembly.toAny key)) :=
    bind (toAny key) fun _ _ => pure trivial
  unfold Assembly.accessKey
  split
  · exact ite (pure trivial) hregister
  · exact ite (pure trivial) hregister
  · exact hregister

/-- A field stands in a table. -/
theorem access (object key : Operand) (line : Nat) :
    Quiet Operand.IsApart (Assembly.access object key line) := by
  have hfield : ∀ held, Quiet Operand.IsApart (do
      let r ← Assembly.toAny object
      return .plain (.field r (← Assembly.accessKey key held) line)) :=
    fun held => bind (toAny object) fun _ _ => bind (accessKey key held) fun _ _ => pure nofun
  unfold Assembly.access
  extract_lets fieldUnder
  have hunder : ∀ held, Quiet Operand.IsApart (fieldUnder held) := by
    intro held
    dsimp only [fieldUnder]
    split
    · exact ite (pure nofun) (hfield held)
    · exact hfield held
  split
  · exact bind (useConstant _) fun _ _ => hunder _
  · exact hunder false

/-! ## Conditions -/

theorem jumpIf (expected : Bool) (e : Operand) : QuietAny (Assembly.jumpIf expected e) := by
  unfold Assembly.jumpIf
  extract_lets choose jumpOn
  have hchoose : ∀ e, QuietAny (choose e) := by
    intro e
    refine (free e).andThen ?_
    split
    · exact emit (by nofun)
    · exact failure
  have hjump : ∀ other, QuietAny (jumpOn other) := by
    intro other
    dsimp only [jumpOn]
    split
    · exact dropLast.andThen (emit (by nofun))
    · split
      · exact hchoose _
      · exact (reserve 1).andThen (bind (part _) fun _ _ => bind (putInto _ _) fun e _ => hchoose e)
  clear_value jumpOn
  split
  · refine bind (instruction? _) fun i _ => ?_
    split
    · exact pureThen (hjump _)
    · exact pureThen (hjump _)
  · exact pureThen (hjump _)

theorem dropValues (places : List Nat) : QuietAny (Assembly.dropValues places) := by
  induction places with
  | nil => exact pure trivial
  | cons place rest ih =>
    refine andThen (alter place fun i cell source h => ?_) ih
    cases i <;> first | exact h | cases h

theorem goIfTrue (e : Operand) : QuietAny (Assembly.goIfTrue e) := by
  refine bind (discharge e) fun e _ => ?_
  extract_lets goOn
  have hgoOn : ∀ exits, QuietAny (goOn exits) :=
    fun _ => (dropValues _).andThen ((patchHere _).andThen (pure trivial))
  have hjump : QuietAny (do goOn [← Assembly.jumpIf false e]) :=
    bind (jumpIf false e) fun _ _ => hgoOn _
  split
  · exact (alter _ fun _ _ _ => Instruction.eq_assign_of_negated).andThen (hgoOn _)
  · exact ite (hgoOn _) hjump
  · exact hjump

theorem goIfFalse (e : Operand) : QuietAny (Assembly.goIfFalse e) := by
  refine bind (discharge e) fun e _ => ?_
  extract_lets goOn
  have hgoOn : ∀ exits, QuietAny (goOn exits) :=
    fun _ => (dropValues _).andThen ((patchHere _).andThen (pure trivial))
  have hjump : QuietAny (do goOn [← Assembly.jumpIf true e]) :=
    bind (jumpIf true e) fun _ _ => hgoOn _
  split
  · exact hgoOn _
  · exact ite hjump (hgoOn _)
  · exact hjump

theorem invert (e : Operand) : Quiet Operand.IsApart (Assembly.invert e) := by
  refine bind (discharge e) fun e _ => ?_
  extract_lets finish negate
  have hfinish : ∀ place, (∀ c, place ≠ .cell c) → Quiet Operand.IsApart (finish place) :=
    fun place h => (dropValues _).andThen ((dropValues _).andThen (pure h))
  split
  · exact hfinish _ (by nofun)
  · refine (alter _ fun _ _ _ => Instruction.eq_assign_of_negated).andThen ?_
    exact hfinish _ (by nofun)
  · have hnegate : ∀ e, Quiet Operand.IsApart (negate e) := by
      intro e
      refine (free e).andThen ?_
      split
      · exact bind (emit (by nofun)) fun _ _ => hfinish _ (by nofun)
      · exact bind failure fun _ (h : False) => h.elim
    split
    · exact hnegate _
    · exact (reserve 1).andThen (bind (part _) fun _ _ => bind (putInto _ _) fun e _ => hnegate e)

/-! ## Operators -/

theorem prepare (op : InfixOp) (e : Operand) : QuietAny (Assembly.prepare op e) := by
  have hregister : ∀ e, QuietAny (do return Operand.plain (.register (← Assembly.toAny e))) :=
    fun e => bind (toAny e) fun _ _ => pure trivial
  refine bind (discharge e) fun e _ => ?_
  split
  · exact bind (goIfTrue e) fun _ _ => pure trivial
  · exact bind (goIfFalse e) fun _ _ => pure trivial
  · exact bind (toNext e) fun _ _ => pure trivial
  · split
    · exact pure trivial
    · exact hregister e
  iterate 2
    split
    · exact pure trivial
    · refine bind (heldConstant? e) fun held _ => ?_
      split
      · exact pure trivial
      · exact hregister e
  iterate 4
    split
    · exact pure trivial
    · exact hregister e

theorem result (line : Nat) {i : Instruction} (h : ∀ cell source, i ≠ .assign cell source)
    (args : List Arg) : QuietAny (Assembly.result line i args) := by
  refine bind (emitAt line h) fun _ _ => andThen ?_ (pure trivial)
  induction args with
  | nil => exact pure trivial
  | cons arg rest ih => exact (freeArg arg).andThen ih

theorem heldOperand? (op : ArithmeticOp) (e : Operand) : QuietAny (Assembly.heldOperand? op e) := by
  unfold Assembly.heldOperand?
  split
  · exact pure trivial
  · split
    · exact pure trivial
    · exact ite (pure trivial) (heldConstant? e)
    · exact heldConstant? e
  · exact heldConstant? e

theorem arithmeticAt (line : Nat) (op : ArithmeticOp) (left right : Operand) :
    Quiet Operand.IsApart (Assembly.arithmeticAt line op left right) := by
  have hregisters : QuietAny (Assembly.arithmeticAt.inRegisters left right) :=
    bind (toAny right) fun _ _ => bind (toAny left) fun _ _ => pure trivial
  unfold Assembly.arithmeticAt
  extract_lets commutes finish
  have hfinish : ∀ args, Quiet Operand.IsApart (finish args) :=
    fun _ => bind (result line (by nofun) _) fun _ _ => pure nofun
  clear_value finish
  split
  · refine bind (heldOperand? op left) fun held _ => ?_
    split
    · exact bind (toAny right) fun _ _ => pureThen (hfinish _)
    · exact bind hregisters fun _ _ => hfinish _
  · refine bind (heldOperand? op right) fun held _ => ?_
    split
    · exact bind (toAny left) fun _ _ => pureThen (hfinish _)
    · exact bind hregisters fun _ _ => hfinish _

theorem equality (expected : Bool) (left right : Operand) :
    Quiet Operand.IsApart (Assembly.equality expected left right) := by
  unfold Assembly.equality
  split
  refine bind (Q := fun _ => True) (map (toAny _) fun _ _ => trivial) fun a _ => ?_
  extract_lets finish
  have hfinish : ∀ b, Quiet Operand.IsApart (finish b) :=
    fun _ => bind (result 0 (by nofun) _) fun _ _ => pure nofun
  split
  · exact pureThen (hfinish _)
  · exact bind (toArg _) fun b _ => hfinish b

theorem ordering (line : Nat) (relation : Relation) (left right : Operand) :
    Quiet Operand.IsApart (Assembly.ordering line relation left right) := by
  unfold Assembly.ordering
  extract_lets finish
  have hfinish : ∀ args, Quiet Operand.IsApart (finish args) :=
    fun _ => bind (result line (by nofun) _) fun _ _ => pure nofun
  clear_value finish
  split
  · exact bind (toAny left) fun _ _ => pureThen (hfinish _)
  · exact bind (toAny right) fun _ _ => pureThen (hfinish _)
  · exact bind (toAny left) fun _ _ => bind (toAny right) fun _ _ => pureThen (hfinish _)

theorem concatenation (line : Nat) (left right : Operand) :
    Quiet Operand.IsApart (Assembly.concatenation line left right) := by
  refine bind (toNext right) fun r _ => bind (part _) fun size _ => bind (part _) fun _ _ => ?_
  extract_lets finish join
  have hjoin : ∀ last, Quiet Operand.IsApart (join last) := by
    intro last
    dsimp only [join]
    split
    · next hplace =>
      have hfinish : Quiet Operand.IsApart (finish ()) :=
        (release r).andThen (pure fun c h => by rw [hplace] at h; cases h)
      split
      · exact (alter _ fun _ _ _ h => by cases h).andThen hfinish
      · exact (emitAt line (by nofun)).discard.andThen hfinish
    · exact failure
  clear_value join
  exact ite (bind (instruction? _) fun last _ => hjoin last) (pureThen (hjoin _))

theorem complete (op : InfixOp) (line : Nat) (left right : Operand) :
    Quiet Operand.IsApart (Assembly.complete op line left right) := by
  refine bind (discharge right) fun right hright => ?_
  split
  · exact pure hright
  · exact pure hright
  · exact concatenation line left right
  · dsimp only
    split
    · exact pure (by nofun)
    · exact arithmeticAt line _ left right
  · exact equality true left right
  · exact equality false left right
  · exact ordering line .less left right
  · exact ordering line .lessEqual left right
  · exact ordering line .less right left
  · exact ordering line .lessEqual right left

theorem applyUnary (op : UnaryOp) (line : Nat) (e : Operand) :
    Quiet Operand.IsApart (Assembly.applyUnary op line e) := by
  refine bind (discharge e) fun e _ => ?_
  split
  · exact pure nofun
  · exact invert e
  · exact bind (toAny e) fun r _ => bind (result line (by nofun) _) fun _ _ => pure nofun

/-! ## Calls and assignments -/

theorem fieldOf (e : Operand) (n : Bytes) (line : Nat) :
    Quiet Operand.IsApart (Assembly.fieldOf e n line) :=
  bind (toAnyOrCell e) fun _ _ => access _ _ line

theorem closeValues (base : Nat) (last : Option Operand) :
    QuietAny (Assembly.closeValues base last) := by
  unfold Assembly.closeValues
  extract_lets count
  have hcount : QuietAny (count ()) := bind (part _) fun _ _ => pure trivial
  split
  · exact ite ((setResults _ _).andThen (pure trivial)) ((toNext _).discard.andThen hcount)
  · exact hcount

theorem callOf (base : Nat) (last : Option Operand) (line : Nat) :
    Quiet Operand.IsApart (Assembly.callOf base last line) :=
  bind (closeValues base last) fun _ _ => bind (emitAt line (by nofun)) fun _ _ =>
    andThen (change fun _ => .of_eq rfl rfl rfl rfl) (pure nofun)

theorem adjust (wanted given : Nat) (last : Option Operand) :
    QuietAny (Assembly.adjust wanted given last) := by
  have hclear : QuietAny (Assembly.adjust.clearNext wanted given) :=
    bind (part _) fun _ _ => (emit (by nofun)).discard
  unfold Assembly.adjust
  extract_lets count
  have hcount : QuietAny (count ()) :=
    ite (reserve _) (change fun _ => .of_eq rfl rfl rfl rfl)
  split
  · refine ite ((setResults _ _).andThen hcount) ((toNext _).discard.andThen ?_)
    exact ite (hclear.andThen hcount) hcount
  · exact ite (hclear.andThen hcount) hcount

theorem methodOf (e : Operand) (n : Bytes) (line : Nat) : QuietAny (Assembly.methodOf e n line) :=
  bind (toAny e) fun r _ => (release r).andThen <| bind (part _) fun _ _ =>
    (reserve 2).andThen <| bind (toArg _) fun key _ => (emitAt line (by nofun)).discard.andThen <|
      (freeArg key).andThen (pure trivial)

theorem flushItems (table : Nat) (count : Option Nat) (stored : Nat) :
    QuietAny (Assembly.flushItems table count stored) :=
  (emit (by nofun)).discard.andThen (change fun _ => .of_eq rfl rfl rfl rfl)

/-- Copies stand in for variables only where a field is accessed. -/
theorem protectTargets (earlier : List Place) (target : Place) :
    Quiet (fun places => ∀ c, .cell c ∈ places → .cell c ∈ earlier)
      (Assembly.protectTargets earlier target) := by
  have hcopies : ∀ copy c, .cell c ∈ earlier.map (useCopy copy target) → .cell c ∈ earlier := by
    intro copy c hmem
    obtain ⟨place, hplace, heq⟩ := List.mem_map.mp hmem
    unfold useCopy at heq
    split at heq
    · split at heq
      · cases heq
      · exact heq ▸ hplace
    · cases heq
    · exact heq ▸ hplace
  refine ite (bind (part _) fun copy _ => ?_) (pure fun _ h => h)
  split
  · exact (emit (by nofun)).discard.andThen ((reserve 1).andThen (pure (hcopies copy)))
  · exact (emit (by nofun)).discard.andThen ((reserve 1).andThen (pure (hcopies copy)))
  · exact pure fun _ h => h

end Quiet

end Assembly

end BuildComposition.Script
