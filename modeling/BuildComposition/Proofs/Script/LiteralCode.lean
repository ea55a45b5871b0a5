import BuildComposition.Proofs.Script.TableContents
import BuildComposition.Script.Interpreter

/-!
# The code of literals

A literal is a constant, a constructor of a table whose keys and values are literals, a literal in
parentheses, or a negated one.  A source that only returns a literal becomes code that looks nothing
up and calls nothing: its instructions move constants and registers, and make and fill tables.

## Main definitions

* `Expr.isLiteral`, `returnsLiteral`: literals, and sources that return one
* `Instruction.builds`: the instructions that literals become
* `Assembly.Emits`: an action on drafts that only adds such instructions

## Main results

* `Assembly.Emits.expr`: a literal is assembled from such instructions
* `builds_of_returnsLiteral`: so is a source that only returns a literal
-/

namespace BuildComposition.Script

/-! ## Literals -/

mutual

/-- The expression is a literal. -/
def Expr.isLiteral : Expr → Bool
  | .constant _ => true
  | .table fields => Field.areLiteral fields
  | .paren e => e.isLiteral
  | .unary .negate e _ => e.isLiteral
  | _ => false

/-- The keys and values of fields are literals. -/
def Field.areLiteral : List Field → Bool
  | [] => true
  | .item e :: rest => e.isLiteral && Field.areLiteral rest
  | .entry key value _ :: rest => key.isLiteral && value.isLiteral && Field.areLiteral rest

end

/-- The function that a source is evaluated as: that of an expression if it can be one, and that of
statements otherwise. -/
def chunk? (source : String) : Option Function :=
  ((parse? ("return " ++ source)).filter (·.assemble?.isSome)).or (parse? source)

/-- The source does nothing but return a literal. -/
def returnsLiteral (source : String) : Bool :=
  match chunk? source with
  | some (.mk _ _ [.give [e]] _) => e.isLiteral
  | _ => false

theorem compile?_eq_bind (source : String) :
    compile? source = (chunk? source).bind Function.assemble? := by
  unfold compile? chunk? assemble?
  cases parse? ("return " ++ source) with
  | none => rfl
  | some f =>
    simp only [Option.bind_eq_bind, Option.bind_some, Option.filter_some]
    cases h : f.assemble? with
    | none => rfl
    | some code => simp [h]

/-! ## Instructions -/

/-- What an instruction reads is a register or a constant. -/
def Arg.isPlain : Arg → Bool
  | .register _ | .constant _ => true
  | .cell _ => false

/-- The instruction is one of those that literals become. -/
def Instruction.builds : Instruction → Bool
  | .move _ source => source.isPlain
  | .set (.register _) key value => key.isPlain && value.isPlain
  | .unary .negate _ _ => true
  | .newTable .. | .setItems .. | .give .. => true
  | _ => false

theorem Instruction.builds_withDestination {i : Instruction} (h : i.builds = true) (dest : Nat) :
    (i.withDestination dest).builds = true := by
  cases i with
  | unary op _ _ => cases op <;> exact h
  | _ => exact h

/-- All instructions of the code are among those that literals become. -/
def Code.Builds (code : Code) : Prop := ∀ i ∈ code.instructions, i.builds = true

namespace Assembly

/-- All instructions of the draft are among those that literals become. -/
def Draft.Builds (d : Draft) : Prop := ∀ i ∈ d.instructions, i.builds = true

/-- What the action adds to a draft are instructions that literals become, and what it gives
satisfies a condition. -/
def Emits {α : Type} (Q : α → Prop) (act : Assembly α) : Prop :=
  ∀ d a e, act.run d = some (a, e) → d.current.Builds → e.current.Builds ∧ Q a

/-- An action of which nothing is needed but what it adds. -/
abbrev EmitsAny {α : Type} (act : Assembly α) : Prop := Emits (fun _ => True) act

namespace Emits

variable {α β : Type} {Q : α → Prop} {R : β → Prop}

theorem pure {a : α} (h : Q a) : Emits Q (Pure.pure a : Assembly α) := by
  intro d b e hrun hd
  cases hrun
  exact ⟨hd, h⟩

theorem bind {x : Assembly α} {f : α → Assembly β} (hx : Emits Q x) (hf : ∀ a, Q a → Emits R (f a)) :
    Emits R (x >>= f) := by
  intro d b e hrun hd
  rw [StateT.run_bind] at hrun
  obtain ⟨⟨a, mid⟩, hfirst, hrest⟩ := Option.bind_eq_some_iff.mp hrun
  obtain ⟨hmid, ha⟩ := hx d a mid hfirst hd
  exact hf a ha mid b e hrest hmid

/-- What the first action gives does not matter. -/
theorem andThen {x : Assembly α} {y : Assembly β} (hx : EmitsAny x) (hy : Emits R y) :
    Emits R (x >>= fun _ => y) :=
  bind hx fun _ _ => hy

theorem failure : Emits Q (Alternative.failure : Assembly α) := by
  intro d a e hrun
  cases hrun

theorem discard {x : Assembly α} (hx : Emits Q x) : EmitsAny (Functor.discard x) :=
  bind hx fun _ _ => pure trivial

/-- A part of the draft is looked at. -/
theorem part (f : Draft → α) : EmitsAny (Assembly.part f) := by
  intro d a e hrun hd
  cases hrun
  exact ⟨hd, trivial⟩

/-- Something other than the instructions is changed. -/
theorem change {f : Draft → Draft} (h : ∀ d, (f d).instructions = d.instructions) :
    EmitsAny (Assembly.change f) := by
  intro d a e hrun hd
  cases hrun
  refine ⟨fun i hi => hd i ?_, trivial⟩
  rwa [← h d.current]

theorem emitAt (line : Nat) {i : Instruction} (h : i.builds = true) :
    EmitsAny (Assembly.emitAt line i) := by
  intro d a e hrun hd
  cases hrun
  refine ⟨fun j hj => ?_, trivial⟩
  rcases Array.mem_push.mp hj with hj | rfl
  · exact hd j hj
  · exact h

theorem emit {i : Instruction} (h : i.builds = true) : EmitsAny (Assembly.emit i) := emitAt 0 h

theorem alter {f : Instruction → Instruction}
    (h : ∀ i : Instruction, i.builds = true → (f i).builds = true) (place : Nat) :
    EmitsAny (Assembly.alter place f) := by
  intro d a e hrun hd
  cases hrun
  refine ⟨fun j hj => ?_, trivial⟩
  rcases mem_altered hj with hj | ⟨i, hi, rfl⟩
  · exact hd j hj
  · exact h i (hd i hi)

/-! ## Registers and constants -/

theorem require (count : Nat) : EmitsAny (Assembly.require count) := by
  unfold Assembly.require
  refine bind (part _) fun free _ => bind (part _) fun size _ => ?_
  split
  · split
    · exact change fun _ => rfl
    · exact failure
  · exact pure trivial

theorem reserve (count : Nat) : EmitsAny (Assembly.reserve count) := by
  unfold Assembly.reserve
  exact (require count).andThen (change fun _ => rfl)

theorem release (r : Nat) : EmitsAny (Assembly.release r) := by
  unfold Assembly.release
  refine change fun d => ?_
  split <;> rfl

theorem useConstant (v : Constant) : EmitsAny (Assembly.useConstant v) := by
  unfold Assembly.useConstant
  refine bind (part _) fun constants _ => ?_
  split
  · exact pure trivial
  · split
    · exact andThen (change fun _ => rfl) (pure trivial)
    · exact pure trivial

theorem freeArg (arg : Arg) : EmitsAny (Assembly.freeArg arg) := by
  unfold Assembly.freeArg
  split
  · exact release _
  · exact pure trivial

end Emits

/-! ## Operands -/

/-- The operand of a literal: a constant, or a value that is in a register or will be in one. -/
inductive Operand.Literal : Operand → Prop
  | constant (v : Constant) : Literal (.plain (.constant v))
  | register (r : Nat) : Literal (.plain (.register r))
  | pending (place : Nat) : Literal (.plain (.pending place))

namespace Operand.Literal

variable {e : Operand}

/-- Nothing has to be fetched. -/
theorem discharge_eq (h : e.Literal) : discharge e = Pure.pure e := by
  cases h <;> rfl

theorem isOpen_eq (h : e.Literal) : e.isOpen = false := by
  cases h <;> rfl

end Operand.Literal

namespace Emits

variable {e : Operand}

theorem discharge (h : e.Literal) : Emits Operand.Literal (Assembly.discharge e) := by
  rw [h.discharge_eq]
  exact pure h

theorem free (e : Operand) : EmitsAny (Assembly.free e) := by
  unfold Assembly.free
  split
  · exact release _
  · exact pure trivial

theorem putInto (h : e.Literal) (r : Nat) :
    Emits (· = .plain (.register r)) (Assembly.putInto r e) := by
  unfold Assembly.putInto
  rw [h.discharge_eq, pure_bind]
  cases h with
  | constant v =>
    dsimp only [Operand.plain]
    have hmove : EmitsAny (Functor.discard (Assembly.emit (.move r (.constant v)))) :=
      (emit (i := .move r (.constant v)) rfl).discard
    split
    · exact hmove.andThen (pure rfl)
    · exact (useConstant v).discard.andThen (hmove.andThen (pure rfl))
  | register s =>
    dsimp only [Operand.plain]
    split
    · exact pure rfl
    · exact (emit rfl).discard.andThen (pure rfl)
  | pending place =>
    dsimp only [Operand.plain]
    refine (alter (fun i hi => ?_) place).andThen (pure rfl)
    exact Instruction.builds_withDestination hi r

theorem finishIn (h : e.Literal) (r : Nat) : EmitsAny (Assembly.finishIn r e) := by
  unfold Assembly.finishIn
  refine bind (putInto h r) ?_
  rintro _ rfl
  exact pure trivial

theorem toNext (h : e.Literal) : EmitsAny (Assembly.toNext e) := by
  unfold Assembly.toNext
  refine bind (discharge h) fun e h => (free e).andThen ((reserve 1).andThen ?_)
  exact bind (part _) fun r _ => (finishIn h _).andThen (pure trivial)

theorem toAny (h : e.Literal) : EmitsAny (Assembly.toAny e) := by
  unfold Assembly.toAny
  rw [h.discharge_eq, pure_bind]
  cases h with
  | constant v => exact toNext (.constant v)
  | register r => exact pure trivial
  | pending place => exact toNext (.pending place)

theorem toValue (h : e.Literal) : Emits Operand.Literal (Assembly.toValue e) := by
  have hvalue : Assembly.toValue e = Assembly.discharge e := by cases h <;> rfl
  rw [hvalue]
  exact discharge h

theorem toArg (h : e.Literal) : Emits (Arg.isPlain · = true) (Assembly.toArg e) := by
  have hregister : Emits (Arg.isPlain · = true)
      (do return Arg.register (← Assembly.toAny e)) :=
    bind (toAny h) fun _ _ => pure rfl
  unfold Assembly.toArg Assembly.heldConstant?
  cases h with
  | constant v =>
    dsimp only [Operand.plain, Operand.hasJumps]
    refine bind (Q := fun _ => True) (bind (useConstant v) fun used _ => pure trivial) fun held _ => ?_
    cases held with
    | none => exact hregister
    | some w => exact pure rfl
  | register r => exact hregister
  | pending place => exact hregister

/-! ## Fields of tables -/

theorem accessKey {key : Operand} (h : key.Literal) (held : Bool) :
    Emits (Arg.isPlain · = true) (Assembly.accessKey key held) := by
  have hregister : Emits (Arg.isPlain · = true)
      (do return Arg.register (← Assembly.toAny key)) :=
    bind (toAny h) fun _ _ => pure rfl
  unfold Assembly.accessKey
  split
  · split
    · exact pure rfl
    · exact hregister
  · split
    · exact pure rfl
    · exact hregister
  · exact hregister

/-- The place of a field of a table in a register, under a key that is a literal. -/
inductive FieldPlace : Place → Prop
  | mk (object : Nat) {key : Arg} (line : Nat) (h : key.isPlain = true) :
      FieldPlace (.field object key line)

theorem access {key : Operand} (h : key.Literal) (table line : Nat) :
    Emits (fun e : Operand => FieldPlace e.place) (Assembly.access (.plain (.register table)) key line) := by
  have hplace : ∀ held : Bool, Emits (fun e : Operand => FieldPlace e.place) (do
      let r ← Assembly.toAny (.plain (.register table))
      return .plain (.field r (← Assembly.accessKey key held) line)) := by
    intro held
    refine bind (toAny (.register table)) fun r _ => ?_
    exact bind (accessKey h held) fun arg harg => pure (.mk r line harg)
  unfold Assembly.access
  cases h with
  | register | pending => exact hplace false
  | constant v =>
    -- a short text is held by the instruction itself
    cases v with
    | str s => exact bind (useConstant _) fun used _ => hplace (used && s.length ≤ maxHeldKey)
    | _ => exact hplace false

theorem store {target : Place} (ht : FieldPlace target) (h : e.Literal) :
    EmitsAny (Assembly.store target e) := by
  obtain ⟨object, line, hkey⟩ := ht
  unfold Assembly.store
  refine bind (toArg h) fun value hvalue => (emitAt line ?_).discard.andThen (freeArg value)
  exact Bool.and_eq_true_iff.mpr ⟨hkey, hvalue⟩

theorem flushItems (table : Nat) (count : Option Nat) (stored : Nat) :
    EmitsAny (Assembly.flushItems table count stored) := by
  unfold Assembly.flushItems
  exact (emit rfl).discard.andThen (change fun _ => rfl)

theorem negate (h : e.Literal) (line : Nat) :
    Emits Operand.Literal (Assembly.applyUnary .negate line e) := by
  unfold Assembly.applyUnary
  refine bind (discharge h) fun e h => ?_
  -- a numeral is folded, and anything else is negated when the code runs
  cases hv : e.numeral?.bind foldNegate? with
  | some v => exact pure (.constant v)
  | none =>
    have hresult : ∀ r, EmitsAny (Assembly.result line (.unary .negate 0 r) [.register r]) := by
      intro r
      unfold Assembly.result
      refine bind (emitAt line rfl) fun place _ => andThen ?_ (pure trivial)
      exact (freeArg _).andThen (pure trivial)
    exact bind (toAny h) fun r _ => bind (hresult r) fun place _ => pure (.pending place)

/-! ## Expressions -/

/-- A pending item is put into its register, and the gathered items into the table if there are
enough of them. -/
theorem gather {pending : Option Operand} (hpending : ∀ e ∈ pending, e.Literal)
    (table gathered stored : Nat) {k : Nat × Nat → Assembly Unit} (hk : ∀ counts, EmitsAny (k counts)) :
    EmitsAny (match pending with
      | none => do k (← Pure.pure (gathered, stored))
      | some e => do
        Functor.discard (Assembly.toNext e)
        if gathered = itemsAtOnce then
          Assembly.flushItems table (some gathered) stored
          k (← Pure.pure (0, stored + gathered))
        else k (← Pure.pure (gathered, stored))) := by
  cases pending with
  | none => exact hk _
  | some e =>
    refine (toNext (hpending e rfl)).discard.andThen ?_
    split
    · exact (flushItems _ _ _).andThen (hk _)
    · exact hk _

-- a literal holds fields and a field holds literals, so that the two inductions are one
mutual

/-- A literal is assembled from instructions that literals become, and leaves the operand of one. -/
theorem expr : ∀ {e : Expr}, e.isLiteral = true → Emits Operand.Literal (Assembly.expr e)
  | .constant v, _ => pure (.constant v)
  | .table fs, h => by
    rw [Assembly.expr]
    refine bind (part _) fun r _ => (emit rfl).discard.andThen ((reserve 1).andThen ?_)
    exact (fields h (by simp) r 0 0).andThen (pure (.register r))
  | .paren e, h => by
    rw [Assembly.expr]
    exact bind (expr (e := e) h) fun e he => discharge he
  | .unary .negate e line, h => by
    rw [Assembly.expr]
    exact bind (expr (e := e) h) fun e he => negate he line

/-- The fields of a table are assembled from instructions that literals become. -/
theorem fields : ∀ {fs : List Field}, Field.areLiteral fs = true →
    ∀ {pending : Option Operand}, (∀ e ∈ pending, e.Literal) → ∀ table gathered stored : Nat,
      EmitsAny (Assembly.fields table pending gathered stored fs)
  | [], _, pending, hpending, table, gathered, stored => by
    rw [Assembly.fields.eq_def]
    dsimp only
    split
    · exact pure trivial
    · cases pending with
      | none => exact flushItems _ _ _
      | some e =>
        have he := hpending e rfl
        simp only [he.isOpen_eq]
        exact (toNext he).discard.andThen (flushItems _ _ _)
  | .item e :: rest, h, pending, hpending, table, gathered, stored => by
    have h := Bool.and_eq_true_iff.mp h
    rw [Assembly.fields.eq_def]
    dsimp only
    refine gather hpending table gathered stored fun counts => ?_
    exact bind (expr h.1) fun e he => fields h.2 (by simpa using he) table _ _
  | .entry key value line :: rest, h, pending, hpending, table, gathered, stored => by
    have h := Bool.and_eq_true_iff.mp h
    have hentry := Bool.and_eq_true_iff.mp h.1
    rw [Assembly.fields.eq_def]
    dsimp only
    refine gather hpending table gathered stored fun counts => ?_
    refine bind (part _) fun free _ => bind (expr hentry.1) fun key hkey => ?_
    refine bind (toValue hkey) fun key hkey => bind (access hkey table line) fun target htarget => ?_
    refine bind (expr hentry.2) fun value hvalue => (store htarget hvalue).andThen ?_
    exact andThen (change fun _ => rfl) (fields h.2 (by simp) table _ _)

end

/-! ## Statements -/

theorem declare (names : List Bytes) : EmitsAny (Assembly.declare names) := by
  unfold Assembly.declare
  refine bind (part _) fun count _ => ?_
  dsimp only
  split
  · exact failure
  · exact change fun _ => rfl

/-- The statement that returns a literal. -/
theorem give {e : Expr} (h : e.isLiteral = true) : EmitsAny (Assembly.stmt (.give [e])) := by
  rw [Assembly.stmt]
  refine bind (part _) fun first _ => ?_
  have hvalues : Emits (fun last => ∃ operand : Operand, last = some operand ∧ operand.Literal)
      (Assembly.exprs [e]) := by
    rw [Assembly.exprs]
    exact bind (expr h) fun operand hoperand => pure ⟨operand, rfl, hoperand⟩
  refine bind hvalues ?_
  rintro _ ⟨operand, rfl, hoperand⟩
  simp only [hoperand.isOpen_eq]
  exact bind (toAny hoperand) fun r _ => (emit rfl).discard

end Emits

end Assembly

/-! ## Sources -/

theorem builds_of_assemble? {params : List Bytes} {variadic : Bool} {e : Expr} {line : Nat}
    (he : e.isLiteral = true) {code : Code}
    (h : (Function.mk params variadic [.give [e]] line).assemble? = some code) : code.Builds := by
  have hbody : Assembly.EmitsAny (do
      Assembly.declare params
      Assembly.reserve params.length
      Assembly.stmts [.give [e]]
      discard (Assembly.emit (.give (← Assembly.part (·.locals.length)) (some 0)))) := by
    refine (Assembly.Emits.declare params).andThen ((Assembly.Emits.reserve _).andThen ?_)
    have hstmts : Assembly.EmitsAny (Assembly.stmts [.give [e]]) := by
      rw [Assembly.stmts, Assembly.stmts]
      refine (Assembly.Emits.give he).andThen ?_
      exact Assembly.Emits.andThen (Assembly.Emits.change fun _ => rfl) (Assembly.Emits.pure trivial)
    refine hstmts.andThen (Assembly.Emits.bind (Assembly.Emits.part _) fun first _ => ?_)
    exact (Assembly.Emits.emit rfl).discard
  unfold Function.assemble? at h
  obtain ⟨⟨_, drafts⟩, hrun, hcode⟩ := Option.bind_eq_some_iff.mp h
  cases hcode
  -- the draft that the function starts from has no instructions
  exact (hbody _ _ _ hrun (by simp [Assembly.Draft.Builds, Assembly.Draft.empty])).1

/-- The instructions of a source that only returns a literal make and fill tables. -/
theorem builds_of_returnsLiteral {source : String} (hsource : returnsLiteral source = true) {code : Code}
    (h : compile? source = some code) : code.Builds := by
  rw [compile?_eq_bind] at h
  obtain ⟨f, hf, hcode⟩ := Option.bind_eq_some_iff.mp h
  rw [returnsLiteral, hf] at hsource
  split at hsource
  · next heq =>
    cases heq
    exact builds_of_assemble? hsource hcode
  · cases hsource

end BuildComposition.Script
