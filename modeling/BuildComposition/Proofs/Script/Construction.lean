import BuildComposition.Proofs.Script.Invariants
import BuildComposition.Proofs.Script.LiteralCode
import BuildComposition.Proofs.Script.Renumbering
import BuildComposition.Script.Interpreter

/-!
# Runs that only make tables

Code that only makes and fills tables cannot reach what was in memory before it ran: its registers
hold nothing but new tables and values that refer to nothing, and so do the new tables.

## Main definitions

* `Value.IsNew`: a value that refers to nothing that was there before
* `Machine.Builds`: a machine on which everything older is as it was

## Main results

* `Keeps.callWithin`: a call of a function that only makes tables
* `Keeps.evaluateSource`: the value of a source that only returns a literal
-/

namespace BuildComposition.Script

/-! ## Machines on which everything older is as it was -/

/-- The value refers to nothing, or to a table with at least a certain number. -/
def Value.IsNew (start : Nat) : Value → Prop
  | .table id => start ≤ id
  | v => v.isPlain = true

theorem Value.IsNew.of_isPlain {start : Nat} {v : Value} (h : v.isPlain = true) : v.IsNew start := by
  cases v <;> first | exact h | cases h

theorem Value.IsNew.key {start : Nat} {v : Value} (h : v.IsNew start) {k : Key} (hk : v.key? = some k) :
    k.value.IsNew start := by
  cases v with
  | float x =>
    rw [Value.key?] at hk
    split at hk
    · cases hk
      rfl
    · split at hk
      · cases hk
      · cases hk
        rfl
  | _ => cases hk <;> exact h

variable {σ : Type}

/-- Some tables come first in memory, and everything behind them is new, as is everything on the
stack.  What was printed, the addresses and the host are as they were, and so is the variable that no function
captures.  Nobody answers for strings when something is assigned to one. -/
structure Machine.Builds (base : Array Table) (old : Memory) (host : σ) (m : Machine σ) :
    Prop where
  older : ∀ i < base.size, m.memory.tables[i]? = base[i]?
  newer : ∀ i t, base.size ≤ i → m.memory.tables[i]? = some t → t.Holds (Value.IsNew base.size)
  stack : ∀ v ∈ m.stack, v.IsNew base.size
  captured_eq : m.captured = []
  cell_zero : m.memory.cells[0]? = some (.apart .nil)
  printed_eq : m.memory.printed = old.printed
  addresses_eq : m.memory.addresses = old.addresses
  host_eq : m.host = host
  strings : ∃ t, base[Memory.stringMetatable]? = some t ∧ t.get (.str (bytes "__newindex")) = .nil

namespace Machine.Builds

variable {base : Array Table} {old : Memory} {host : σ} {m : Machine σ}

theorem size_le (h : m.Builds base old host) : base.size ≤ m.memory.tables.size :=
  size_le_of_leading h.older

theorem table (h : m.Builds base old host) {id : Nat} (hid : base.size ≤ id) :
    (m.memory.table id).Holds (Value.IsNew base.size) := by
  unfold Memory.table
  rw [Array.getD_eq_getD_getElem?]
  cases ht : m.memory.tables[id]? with
  | none => exact .empty
  | some t => exact h.newer id t hid ht

theorem modifyTable (h : m.Builds base old host) {id : Nat} (hid : base.size ≤ id) {f : Table → Table}
    (hf : ∀ t, t.Holds (Value.IsNew base.size) → (f t).Holds (Value.IsNew base.size)) :
    ({ m with memory := m.memory.modifyTable id f } : Machine σ).Builds base old host where
  older i hi := by
    have hne : id ≠ i := by omega
    simp only [Memory.modifyTable]
    unfold altered
    rw [Array.getElem?_modify, if_neg hne]
    exact h.older i hi
  newer i t hi ht := by
    simp only [Memory.modifyTable] at ht
    unfold altered at ht
    rw [Array.getElem?_modify] at ht
    by_cases hid : id = i
    · rw [if_pos hid] at ht
      obtain ⟨old, hold, rfl⟩ := Option.map_eq_some_iff.mp ht
      exact hf old (h.newer i old hi hold)
    · rw [if_neg hid] at ht
      exact h.newer i t hi ht
  stack := h.stack
  captured_eq := h.captured_eq
  cell_zero := h.cell_zero
  printed_eq := h.printed_eq
  addresses_eq := h.addresses_eq
  host_eq := h.host_eq
  strings := h.strings

theorem newTable (h : m.Builds base old host) {t : Table} (ht : t.Holds (Value.IsNew base.size)) :
    ({ m with memory := (m.memory.newTable t).2 } : Machine σ).Builds base old host where
  older i hi := by
    have hsize := h.size_le
    simp only [Memory.newTable]
    rw [Array.getElem?_push, if_neg (by omega)]
    exact h.older i hi
  newer i u hi hu := by
    simp only [Memory.newTable] at hu
    rw [Array.getElem?_push] at hu
    split at hu
    · cases hu
      exact ht
    · exact h.newer i u hi hu
  stack := h.stack
  captured_eq := h.captured_eq
  cell_zero := h.cell_zero
  printed_eq := h.printed_eq
  addresses_eq := h.addresses_eq
  host_eq := h.host_eq
  strings := h.strings

/-- No value that a script gets assigns in the place of another one. -/
theorem metafield_eq_nil (h : m.Builds base old host) {v : Value} (hv : v.IsNew base.size) :
    m.memory.metafield "__newindex" v = .nil := by
  cases v with
  | table id =>
    have hnone : m.memory.metatable id = none := (h.table hv).metatable
    rw [Memory.metafield, hnone]
  | str s =>
    obtain ⟨t, ht, hget⟩ := h.strings
    have hlt : Memory.stringMetatable < base.size := (Array.getElem?_eq_some_iff.mp ht).1
    have htable : m.memory.table Memory.stringMetatable = t := by
      rw [Memory.table, Array.getD_eq_getD_getElem?, h.older _ hlt, ht]
      rfl
    show (m.memory.table Memory.stringMetatable).get (.str (bytes "__newindex")) = .nil
    rw [htable, hget]
  | _ => rfl

/-- Functions, failures and further variables do not matter. -/
theorem withOthers (h : m.Builds base old host) {cells : Array Cell} (hcells : cells[0]? = some (.apart .nil))
    (closures : Array Closure) (failures : Array ScriptError) :
    (⟨⟨m.memory.tables, cells, closures, failures, m.memory.printed, m.memory.addresses⟩, m.stack, m.captured,
      m.host⟩ : Machine σ).Builds base old host :=
  { h with cell_zero := hcells }

theorem withStack (h : m.Builds base old host) {stack : Array Value}
    (hstack : ∀ v ∈ stack, v.IsNew base.size) : ({ m with stack } : Machine σ).Builds base old host :=
  { h with stack := hstack }

end Machine.Builds

/-- A function that only makes tables runs, and no other one waits for it. -/
structure Calls.Builds (c : Calls) : Prop where
  waiting_eq : c.waiting = []
  code : c.current.code.Builds

/-! ## The stack -/

namespace Keeps

variable {α : Type} {base : Array Table} {old : Memory} {host : σ}

theorem top (position : Nat) :
    Keeps (Machine.Builds base old host) (Value.IsNew base.size) (top position : Run σ Value) := by
  unfold Script.top
  refine bind get fun m hm => pure ?_
  rcases mem_getD_or_eq m.stack position .nil with hmem | hnil
  · exact hm.stack _ hmem
  · rw [hnil]
    rfl

theorem put {v : Value} (hv : v.IsNew base.size) (position : Nat) :
    KeepsAny (Machine.Builds base old host) (put position v : Run σ Unit) := by
  refine modify fun m hm => hm.withStack fun w hw => ?_
  rcases mem_replaced hw with hw | rfl
  · exact hm.stack w hw
  · exact hv

theorem isNew_padded {start count : Nat} {stack : Array Value} (h : ∀ v ∈ stack, v.IsNew start) :
    ∀ v ∈ padded stack count, v.IsNew start := by
  induction count generalizing stack with
  | zero => exact h
  | succ count ih =>
    refine ih fun v hv => ?_
    rcases Array.mem_push.mp hv with hv | rfl
    · exact h v hv
    · rfl

theorem grow (size : Nat) : KeepsAny (Machine.Builds base old host) (grow size : Run σ Unit) :=
  modify fun _ hm => hm.withStack (isNew_padded hm.stack)

theorem putAll {vs : List Value} (hvs : ∀ v ∈ vs, v.IsNew base.size) (position : Nat) :
    KeepsAny (Machine.Builds base old host) (putAll position vs : Run σ Unit) := by
  induction vs generalizing position with
  | nil => exact pure trivial
  | cons v vs ih =>
    refine (put (hvs v List.mem_cons_self) position).andThen (ih (fun w hw => ?_) _)
    exact hvs w (List.mem_cons_of_mem v hw)

theorem clear (position count : Nat) :
    KeepsAny (Machine.Builds base old host) (clear position count : Run σ Unit) := by
  induction count generalizing position with
  | zero => exact pure trivial
  | succ count ih => exact andThen (put (v := .nil) rfl position) (ih _)

theorem taken (position count : Nat) :
    Keeps (Machine.Builds base old host) (fun vs => ∀ v ∈ vs, v.IsNew base.size)
      (taken position count : Run σ (List Value)) := by
  unfold Script.taken
  refine bind get fun m hm => pure fun v hv => ?_
  obtain ⟨i, -, rfl⟩ := List.mem_map.mp hv
  rcases mem_getD_or_eq m.stack (position + i) .nil with hmem | hnil
  · exact hm.stack _ hmem
  · rw [hnil]
    rfl

/-- No variable on the stack was captured. -/
theorem closeFrom (position : Nat) :
    KeepsAny (Machine.Builds base old host) (closeFrom position : Run σ Unit) := by
  unfold Script.closeFrom
  refine bind get fun m hm => ?_
  rw [hm.captured_eq]
  exact modify fun _ hm => { hm with captured_eq := rfl }

theorem ends_guarded {Q : α → Prop} {act : Run σ α} {m : Machine σ}
    (h : Ends (Machine.Builds base old host) Q (act.run m)) (height : Nat) :
    Ends (Machine.Builds base old host) Q ((guarded height act).run m) :=
  h.tryCatch fun fault t ht => ((closeFrom height).andThen (throw fault)) t ht

theorem guarded {Q : α → Prop} {act : Run σ α} (h : Keeps (Machine.Builds base old host) Q act)
    (height : Nat) : Keeps (Machine.Builds base old host) Q (guarded height act) :=
  fun m hm => ends_guarded (h m hm) height

/-! ## Access to new tables -/

/-- What a new table holds is new as well; that the access is noted changes the new table alone. -/
theorem peek {id : Nat} (hid : base.size ≤ id) (key : Value) :
    Keeps (Machine.Builds base old host) (Value.IsNew base.size) (peek id key : Run σ Value) := by
  have hget : ∀ k, Keeps (Machine.Builds base old host) (Value.IsNew base.size)
      (Script.load (fun m => (m.table id).get k) : Run σ Value) :=
    fun k => load fun m hm => (hm.table hid).get rfl k
  unfold Script.peek
  split
  · next n _ =>
    refine andThen (store fun m hm => ?_) (hget _)
    unfold Memory.touch
    -- what reading notes in a table is about its layout
    split
    · split
      · exact hm.modifyTable hid fun t ht => ht.touch _
      · exact hm
    · exact hm
  · exact hget _
  · exact pure rfl

theorem itemsFrom {id : Nat} (hid : base.size ≤ id) (fuel n : Nat) (read : List Value) :
    KeepsAny (Machine.Builds base old host) (itemsFrom id fuel n read : Run σ (List Value)) := by
  induction fuel generalizing n read with
  | zero => exact pure trivial
  | succ fuel ih =>
    rw [Script.itemsFrom]
    refine bind (peek hid _) fun v _ => ?_
    split
    · exact pure trivial
    · exact ih _ _

theorem items {id : Nat} (hid : base.size ≤ id) :
    KeepsAny (Machine.Builds base old host) (items id : Run σ (List Value)) := by
  unfold Script.items
  exact itemsFrom hid _ _ _

/-- A new table has no metatable, so that a field of it is looked up in no other one. -/
theorem fieldOf {id : Nat} (hid : base.size ≤ id) (invoke : Invoke σ) (caller : Caller)
    (name : String) :
    Keeps (Machine.Builds base old host) (Value.IsNew base.size)
      (fieldOf invoke caller id name : Run σ Value) := by
  unfold Script.fieldOf
  refine bind (Q := (· = none)) (load fun m hm => (hm.table hid).metatable) ?_
  rintro _ rfl
  exact peek hid _

/-! ## Instructions -/

section

variable {a : Activation}

theorem read {arg : Arg} (h : arg.isPlain = true) :
    Keeps (Machine.Builds base old host) (Value.IsNew base.size) (a.read arg : Run σ Value) := by
  cases arg with
  | register r => exact top _
  | constant c => exact pure (.of_isPlain c.isPlain_value)
  | cell c => cases h

theorem write {v : Value} (hv : v.IsNew base.size) (r : Nat) :
    Keeps (Machine.Builds base old host) (· = Flow.next) (a.write r v : Run σ Flow) := by
  unfold Activation.write
  exact (put hv _).andThen (pure rfl)

theorem assignOwn (sites : Sites) {id : Nat} {key value : Value} (hid : base.size ≤ id)
    (hk : key.IsNew base.size) (hv : value.IsNew base.size) :
    KeepsAny (Machine.Builds base old host) (assignOwn sites id key value : Run σ Unit) := by
  unfold Script.assignOwn
  cases hkey : key.key? with
  | none => dsimp only; split <;> exact raise sites _
  | some k =>
    refine store fun m hm => ?_
    have hset : m.memory.rawSet id key value = m.memory.modifyTable id (·.set k value) := by
      simp only [Memory.rawSet, hkey]
    rw [hset]
    exact hm.modifyTable hid fun t ht => ht.set (fun _ => .of_isPlain) (hk.key hkey) hv

theorem ownValue (key : Value) {v : Value} (hv : v.IsNew base.size) :
    KeepsAny (Machine.Builds base old host) (ownValue key v : Run σ Value) := by
  cases v with
  | table id => exact (peek hv key).mono fun _ _ => trivial
  | _ => exact pure trivial

/-- What is assigned to a new table is put into it. -/
theorem assignIndex (invoke : Invoke σ) (caller : Caller) {object key value : Value}
    (ho : object.IsNew base.size) (hk : key.IsNew base.size) (hv : value.IsNew base.size) :
    KeepsAny (Machine.Builds base old host) (assignIndex invoke caller object key value : Run σ Unit) := by
  refine bind (Q := fun reached => ∃ found, reached = .own object found) ?_ ?_
  · refine bind (ownValue key ho) fun own _ => ?_
    cases own with
    | nil =>
      refine bind (Q := (· = none)) ?_ ?_
      · refine bind (Q := (· = .nil)) (load fun m hm => hm.metafield_eq_nil ho) ?_
        rintro _ rfl
        cases object with
        | table id => exact pure rfl
        | _ => exact raise _ _
      · rintro _ rfl
        exact pure ⟨_, rfl⟩
    | _ => exact pure ⟨_, rfl⟩
  · rintro _ ⟨found, rfl⟩
    cases object with
    | table id => exact assignOwn _ ho hk hv
    | _ => exact pure trivial

/-- An instruction that literals become goes on to the next one or ends the function. -/
theorem execute (invoke : Invoke σ) (sites : Sites) {i : Instruction} (h : i.builds = true) :
    Keeps (Machine.Builds base old host) (fun flow => flow = .next ∨ ∃ p n, flow = .give p n)
      (a.execute invoke sites i) := by
  have hnext : ∀ flow, flow = Flow.next → flow = .next ∨ ∃ p n, flow = .give p n :=
    fun _ h => .inl h
  cases i with
  | move dest source => exact bind (read h) fun v hv => (write hv dest).mono hnext
  | newTable dest items entries =>
    -- the number of the table is the size of memory, which is not below that of the base
    refine bind (Q := Value.IsNew base.size ∘ Value.table) (allocate fun m hm => ?_) fun id hid =>
      (write hid dest).mono hnext
    exact ⟨hm.newTable (.make (fun _ => .of_isPlain) items entries), hm.size_le⟩
  | set object key value =>
    cases object with
    | register r =>
      have hargs := Bool.and_eq_true_iff.mp h
      refine bind (read rfl) fun o ho => bind (read hargs.1) fun k hk => ?_
      exact bind (read hargs.2) fun v hv =>
        (assignIndex invoke _ ho hk hv).andThen (pure (.inl rfl))
    | _ => cases h
  | setItems table count offset =>
    refine bind (top _) fun v hv => ?_
    cases v with
    | table id =>
      refine bind (taken _ _) fun vs hvs => andThen (store fun m hm => ?_) (pure (.inl rfl))
      exact hm.modifyTable hv fun t ht => ht.setItems (fun _ => .of_isPlain) hvs offset
    | _ => exact pure (.inl rfl)
  | unary op dest source =>
    cases op with
    | negate =>
      refine bind (top _) fun v _ => bind (Q := Value.IsNew base.size) ?_ fun w hw =>
        (write hw dest).mono hnext
      refine orRaise sites fun w hw => ?_
      rw [Script.negate] at hw
      split at hw
      · next n hn =>
        cases hw
        exact .of_isPlain (isPlain_negative (isPlain_of_number? hn))
      · cases hw
    | _ => cases h
  | give first count => exact pure (.inr ⟨_, _, rfl⟩)
  | _ => cases h

end

/-! ## Calls -/

theorem beginAt (f : Closure) (home count : Nat) (wanted : Option Nat) :
    Keeps (Machine.Builds base old host) (·.code = f.code)
      (f.begin home count wanted : Run σ Activation) := by
  unfold Closure.begin
  dsimp only
  split
  · split
    · exact raise _ _
    · refine (grow _).andThen ((clear _ _).andThen ?_)
      exact bind (taken _ _) fun vs hvs => (putAll hvs _).andThen (pure rfl)
  · exact (grow _).andThen ((clear _ _).andThen (pure rfl))

theorem activate (f : Closure) (home count : Nat) (wanted : Option Nat) (sites : Sites) :
    Keeps (Machine.Builds base old host) (·.code = f.code)
      (f.activate home count wanted sites : Run σ Activation) := by
  unfold Closure.activate
  split
  · exact raise _ _
  · exact beginAt f home count wanted

variable [Host σ]

theorem step (invoke : Invoke σ) (outer : Sites) {c : Calls} (hc : c.Builds) :
    Keeps (Machine.Builds base old host) (Sum.elim Calls.Builds fun vs => ∀ v ∈ vs, v.IsNew base.size)
      (c.step invoke outer) := by
  have hfinish : ∀ vs : List Value, (∀ v ∈ vs, v.IsNew base.size) →
      Keeps (Machine.Builds base old host)
        (Sum.elim Calls.Builds fun vs => ∀ v ∈ vs, v.IsNew base.size) (c.finish vs : Run σ _) := by
    intro vs hvs
    rw [Calls.finish, hc.waiting_eq]
    exact pure hvs
  unfold Calls.step
  dsimp only
  split
  · exact hfinish [] (by simp)
  · next i hi =>
    -- no instruction that literals become calls anything, so that no function ever waits
    have hbuilds : i.builds = true := hc.code i (Array.mem_of_getElem? hi)
    refine bind (execute invoke _ hbuilds) ?_
    rintro _ (rfl | ⟨p, n, rfl⟩)
    · exact pure ⟨hc.waiting_eq, hc.code⟩
    · exact (closeFrom _).andThen (bind (taken p n) hfinish)

/-- A call of a function that only makes tables. -/
theorem callWithin {m : Machine σ} (hm : m.Builds base old host) (levels : Nat) {id : Nat}
    (hcode : (m.memory.closure id).code.Builds) {args : List Value}
    (hargs : ∀ v ∈ args, v.IsNew base.size) (caller : Caller) :
    Ends (Machine.Builds base old host) (fun vs => ∀ v ∈ vs, v.IsNew base.size)
      ((callWithin (levels + 1) (.closure id) args caller).run m) := by
  have hrest : Keeps (Machine.Builds base old host) (fun vs => ∀ v ∈ vs, v.IsNew base.size) (do
      Script.grow (caller.height + 1 + args.length)
      Script.putAll (caller.height + 1) args
      let a ← (m.memory.closure id).activate caller.height args.length none caller.sites
      Script.iterate (Calls.step (Script.callWithin levels) caller.sites) maxSteps ⟨a, []⟩) := by
    refine (grow _).andThen ((putAll hargs _).andThen (bind (activate _ _ _ _ _) fun a ha => ?_))
    refine iterate (fun c hc => step _ _ hc) maxSteps ⟨rfl, ?_⟩
    rw [ha]
    exact hcode
  exact hrest m hm

theorem isNew_first {start : Nat} {vs : List Value} (h : ∀ v ∈ vs, v.IsNew start) :
    (first vs).IsNew start := by
  cases vs with
  | nil => rfl
  | cons v vs => exact h v List.mem_cons_self

/-- The value of a source that only returns a literal. -/
theorem evaluateSource {source : String} (hsource : returnsLiteral source = true) (name : Bytes)
    (environment : Nat) :
    Keeps (Machine.Builds base old host) (Value.IsNew base.size)
      (evaluateSource source name environment : Run σ Value) := by
  unfold Script.evaluateSource sourceValue
  cases hcompile : compile? source with
  | none => exact fail .malformed fun _ hm => hm.withOthers hm.cell_zero _ _
  | some code =>
    intro m hm
    -- the function that is called is the one that was made last
    have hcells : (m.memory.cells.push (.apart (.table environment)))[0]? = some (.apart .nil) := by
      have hsize : 0 < m.memory.cells.size := (Array.getElem?_eq_some_iff.mp hm.cell_zero).1
      rw [Array.getElem?_push, if_neg (by omega), hm.cell_zero]
    have hcalled : (⟨⟨m.memory.tables, m.memory.cells.push (.apart (.table environment)),
        m.memory.closures.push ⟨code, #[m.memory.cells.size], name⟩, m.memory.failures,
          m.memory.printed, m.memory.addresses⟩, m.stack, m.captured, m.host⟩ :
        Machine σ).Builds base old host := hm.withOthers hcells _ _
    have hcode : (Memory.closure ⟨m.memory.tables, m.memory.cells.push (.apart (.table environment)),
        m.memory.closures.push ⟨code, #[m.memory.cells.size], name⟩, m.memory.failures,
          m.memory.printed, m.memory.addresses⟩ m.memory.closures.size).code = code := by
      simp [Memory.closure]
    have hnone : ∀ v ∈ ([] : List Value), v.IsNew base.size := fun v hv => nomatch hv
    have hend := callWithin hcalled 198 (hcode ▸ builds_of_returnsLiteral hsource hcompile) hnone outside
    exact hend.bind fun vs t hvs ht => ⟨ht, isNew_first hvs⟩

end Keeps

end BuildComposition.Script
