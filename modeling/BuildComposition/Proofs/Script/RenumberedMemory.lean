import BuildComposition.Proofs.Script.RenumberedTables

/-!
# Memory under other numbers

Two memories hold the same under different numbers.  The second may hold more, between what has the same
numbers in both and what is made later; nothing in the first refers to that.  What a script can ask of
memory is the same then: everything that it finds, the length of tables, and the addresses that are shown.

## Main definitions

* `Renumbers`: an array in which the elements of another one stand under other numbers
* `Memory.Renumbers`: the same for all that memory holds
* `Memory.Extends`, `Renumbering.past`: memory in which more was made, and the numbers that come behind it

## Main results

* `Memory.Renumbers.rawGet`, `Memory.Renumbers.metafield`: what is found
* `Memory.Renumbers.modifyTable`, `Memory.Renumbers.newTable`: what is changed and made
* `Memory.Renumbers.display`, `Memory.Renumbers.failureOf`: what is shown
* `Memory.renumbers_one_iff`: under the same numbers the two memories are one
* `Memory.Extends.renumbers_settle`: memory in which more was made, and nothing was changed
-/

namespace BuildComposition.Script

/-! ## Arrays -/

/-- The elements of one array stand in another one under other numbers, which go on behind the last one. -/
structure Renumbers {α β : Type} (r : Nat → Nat) (f : α → β) (as : Array α) (bs : Array β) : Prop where
  getElem? : ∀ i, bs[r i]? = as[i]?.map f
  number : ∀ i, r (as.size + i) = bs.size + i

namespace Renumbers

variable {α β : Type} {r : Nat → Nat} {f : α → β} {as : Array α} {bs : Array β}

theorem number_size (h : Renumbers r f as bs) : r as.size = bs.size := h.number 0

theorem getD (h : Renumbers r f as bs) (i : Nat) (a : α) : bs.getD (r i) (f a) = f (as.getD i a) := by
  rw [Array.getD_eq_getD_getElem?, Array.getD_eq_getD_getElem?, h.getElem?]
  cases as[i]? <;> rfl

theorem push (hr : r.Injective) (h : Renumbers r f as bs) (a : α) :
    Renumbers r f (as.push a) (bs.push (f a)) := by
  refine ⟨fun i => ?_, fun i => ?_⟩
  · simp only [Array.getElem?_push, ← h.number_size, hr.eq_iff, h.getElem?]
    split <;> rfl
  · rw [Array.size_push, Array.size_push, Nat.add_assoc, h.number, Nat.add_assoc]

theorem altered (hr : r.Injective) (h : Renumbers r f as bs) {g : α → α} {g' : β → β}
    (hg : ∀ a, g' (f a) = f (g a)) (i : Nat) :
    Renumbers r f (altered as i g) (Script.altered bs (r i) g') := by
  refine ⟨fun j => ?_, fun j => ?_⟩
  · simp only [Script.altered, Array.getElem?_modify, hr.eq_iff, h.getElem?]
    split
    · cases as[j]? <;> simp [hg]
    · rfl
  · simp only [Script.altered, Array.size_modify, h.number]

theorem replaced (hr : r.Injective) (h : Renumbers r f as bs) (i : Nat) (a : α) :
    Renumbers r f (replaced as i a) (Script.replaced bs (r i) (f a)) := by
  have hlt : r i < bs.size ↔ i < as.size := by
    rw [← Nat.not_le, ← Nat.not_le, ← Array.getElem?_eq_none_iff, ← Array.getElem?_eq_none_iff, h.getElem?,
      Option.map_eq_none_iff]
  refine ⟨fun j => ?_, fun j => ?_⟩
  · simp only [Script.replaced, Array.getElem?_setIfInBounds, hr.eq_iff, h.getElem?, hlt]
    split
    · split <;> rfl
    · rfl
  · simp only [Script.replaced, Array.size_setIfInBounds, h.number]

theorem eq_of_id {bs : Array α} (h : Renumbers id id as bs) : bs = as :=
  Array.ext_getElem? fun i => by simpa using h.getElem? i

theorem refl (as : Array α) : Renumbers id id as as := ⟨fun i => by simp, fun _ => rfl⟩

end Renumbers

/-! ## Memory -/

variable (ρ : Renumbering)

/-- A captured variable under other numbers. -/
def Cell.renumber : Cell → Cell
  | .onStack position => .onStack position
  | .apart v => .apart (v.renumber ρ)

/-- A function under other numbers. -/
def Closure.renumber (f : Closure) : Closure := { f with cells := f.cells.map ρ.cell }

theorem Cell.renumber_one (c : Cell) : c.renumber 1 = c := by
  cases c with
  | onStack position => rfl
  | apart v => rw [renumber, v.renumber_one]

theorem Closure.renumber_one (f : Closure) : f.renumber 1 = f :=
  congrArg (fun cells => { f with cells }) (Array.map_id f.cells)

/-- The second memory holds what the first one holds, under other numbers, and at the same addresses. -/
structure Memory.Renumbers (m n : Memory) : Prop where
  tables : Script.Renumbers ρ.table (Table.renumber ρ) m.tables n.tables
  cells : Script.Renumbers ρ.cell (Cell.renumber ρ) m.cells n.cells
  closures : Script.Renumbers ρ.closure (Closure.renumber ρ) m.closures n.closures
  failures : Script.Renumbers ρ.failure id m.failures n.failures
  printed : n.printed = m.printed
  tableAddress : ∀ id, n.addresses.table (ρ.table id) = m.addresses.table id
  closureAddress : ∀ id, n.addresses.closure (ρ.closure id) = m.addresses.closure id
  builtinAddress : n.addresses.builtin = m.addresses.builtin

theorem Memory.renumbers_one_iff {m n : Memory} : m.Renumbers 1 n ↔ n = m := by
  have htable : Table.renumber 1 = id := funext Table.renumber_one
  have hcell : Cell.renumber 1 = id := funext Cell.renumber_one
  have hclosure : Closure.renumber 1 = id := funext Closure.renumber_one
  constructor
  · intro h
    obtain ⟨tables, cells, closures, failures, printed, addresses⟩ := m
    obtain ⟨tables', cells', closures', failures', printed', addresses'⟩ := n
    obtain rfl := (htable ▸ h.tables : Script.Renumbers id id tables tables').eq_of_id
    obtain rfl := (hcell ▸ h.cells : Script.Renumbers id id cells cells').eq_of_id
    obtain rfl := (hclosure ▸ h.closures : Script.Renumbers id id closures closures').eq_of_id
    obtain rfl := (h.failures : Script.Renumbers id id failures failures').eq_of_id
    obtain rfl : printed' = printed := h.printed
    obtain ⟨⟨table, closure⟩, builtin⟩ := addresses
    obtain ⟨⟨table', closure'⟩, builtin'⟩ := addresses'
    obtain rfl : table' = table := funext h.tableAddress
    obtain rfl : closure' = closure := funext h.closureAddress
    obtain rfl : builtin' = builtin := h.builtinAddress
    rfl
  · rintro rfl
    refine ⟨?_, ?_, ?_, .refl _, rfl, fun _ => rfl, fun _ => rfl, rfl⟩
    · exact htable.symm ▸ .refl _
    · exact hcell.symm ▸ .refl _
    · exact hclosure.symm ▸ .refl _

namespace Memory.Renumbers

variable {ρ} {m n : Memory}

/-! ### What is found -/

theorem table (h : m.Renumbers ρ n) (id : Nat) : n.table (ρ.table id) = (m.table id).renumber ρ := by
  have htable := h.tables.getD id .empty
  rwa [Table.renumber_empty] at htable

theorem closure (h : m.Renumbers ρ n) (id : Nat) : n.closure (ρ.closure id) = (m.closure id).renumber ρ := by
  have hclosure := h.closures.getD id ⟨.trivial, #[], []⟩
  rwa [show Closure.renumber ρ ⟨.trivial, #[], []⟩ = ⟨.trivial, #[], []⟩ by simp [Closure.renumber]] at hclosure

theorem failure (h : m.Renumbers ρ n) (id : Nat) : n.failure (ρ.failure id) = m.failure id :=
  h.failures.getD id .exhausted

theorem metatable (h : m.Renumbers ρ n) (id : Nat) :
    n.metatable (ρ.table id) = (m.metatable id).map ρ.table := by
  rw [Memory.metatable, Memory.metatable, h.table, Table.metatable_renumber]

theorem rawGet (h : m.Renumbers ρ n) (id : Nat) (key : Value) :
    n.rawGet (ρ.table id) (key.renumber ρ) = (m.rawGet id key).renumber ρ := by
  rw [Memory.rawGet, Memory.rawGet, Value.key?_renumber]
  cases key.key? with
  | none => rfl
  | some k => exact (congrArg (Table.get · _) (h.table id)).trans Table.get_renumber

theorem metafield (h : m.Renumbers ρ n) (name : String) (v : Value) :
    n.metafield name (v.renumber ρ) = (m.metafield name v).renumber ρ := by
  cases v with
  | table id =>
    simp only [Value.renumber, Memory.metafield, h.metatable]
    cases m.metatable id with
    | none => rfl
    | some mt => exact h.rawGet mt (.ofString name)
  | str s =>
    have hstrings := h.rawGet stringMetatable (.ofString name)
    rwa [ρ.table_library _ (Nat.le_refl _)] at hstrings
  | _ => rfl

/-! ### What is shown -/

theorem typeName (h : m.Renumbers ρ n) (id : Nat) : n.typeName (ρ.table id) = m.typeName id := by
  have hname : n.metafield "__name" (.table (ρ.table id)) = (m.metafield "__name" (.table id)).renumber ρ :=
    h.metafield "__name" (.table id)
  rw [Memory.typeName, Memory.typeName, hname]
  cases m.metafield "__name" (.table id) <;> rfl

theorem display (h : m.Renumbers ρ n) (v : Value) : n.display (v.renumber ρ) = m.display v := by
  cases v with
  | bool b => cases b <;> rfl
  | table id => simp only [Value.renumber, Memory.display, h.typeName, h.tableAddress]
  | closure id => simp only [Value.renumber, Memory.display, h.closureAddress]
  | builtin b => simp only [Value.renumber, Memory.display, h.builtinAddress]
  | failure id => simp only [Value.renumber, Memory.display, h.failure]
  | _ => rfl

theorem failureOf (h : m.Renumbers ρ n) (v : Value) : n.failureOf (v.renumber ρ) = m.failureOf v := by
  have hdisplay := h.display v
  cases v with
  | failure id => exact h.failure id
  | _ =>
    simp only [Value.renumber, Memory.failureOf] at hdisplay ⊢
    rw [hdisplay]

/-! ### What is made -/

theorem newTable (h : m.Renumbers ρ n) (t : Table) :
    (m.newTable t).2.Renumbers ρ (n.newTable (t.renumber ρ)).2 :=
  { h with tables := h.tables.push ρ.table_injective t }

theorem newCell (h : m.Renumbers ρ n) (c : Cell) : (m.newCell c).2.Renumbers ρ (n.newCell (c.renumber ρ)).2 :=
  { h with cells := h.cells.push ρ.cell_injective c }

theorem newClosure (h : m.Renumbers ρ n) (f : Closure) :
    (m.newClosure f).2.Renumbers ρ (n.newClosure (f.renumber ρ)).2 :=
  { h with closures := h.closures.push ρ.closure_injective f }

theorem newFailure (h : m.Renumbers ρ n) (e : ScriptError) :
    (m.newFailure e).2.Renumbers ρ (n.newFailure e).2 :=
  { h with failures := h.failures.push ρ.failure_injective e }

/-! ### What is changed -/

theorem modifyTable (h : m.Renumbers ρ n) (id : Nat) {f f' : Table → Table}
    (hf : ∀ t : Table, f' (t.renumber ρ) = (f t).renumber ρ) :
    (m.modifyTable id f).Renumbers ρ (n.modifyTable (ρ.table id) f') :=
  { h with tables := h.tables.altered ρ.table_injective hf id }

theorem touch (h : m.Renumbers ρ n) (id : Nat) (k : Key) :
    (m.touch id k).Renumbers ρ (n.touch (ρ.table id) (k.renumber ρ)) := by
  unfold Memory.touch
  rw [h.table, Table.slot?_renumber, Table.limit_renumber]
  split
  · split
    · exact h.modifyTable id fun _ => Table.touch_renumber
    · exact h
  · exact h

theorem rawSet (h : m.Renumbers ρ n) (id : Nat) (key v : Value) :
    (m.rawSet id key v).Renumbers ρ (n.rawSet (ρ.table id) (key.renumber ρ) (v.renumber ρ)) := by
  rw [Memory.rawSet, Memory.rawSet, Value.key?_renumber]
  cases key.key? with
  | none => exact h
  | some k => exact h.modifyTable id fun _ => Table.set_renumber

theorem length (h : m.Renumbers ρ n) (id : Nat) :
    (n.length (ρ.table id)).1 = (m.length id).1 ∧ (m.length id).2.Renumbers ρ (n.length (ρ.table id)).2 := by
  unfold Memory.length
  dsimp only
  rw [h.table, Table.length_renumber]
  refine ⟨rfl, ?_⟩
  rw [Table.limit_renumber, Table.limit_renumber]
  by_cases hlimit : (m.table id).length.2.limit = (m.table id).limit
  · rwa [if_pos hlimit, if_pos hlimit]
  · rw [if_neg hlimit, if_neg hlimit]
    exact h.modifyTable id fun _ => rfl

theorem setMetatable (h : m.Renumbers ρ n) (id : Nat) (mt : Option Nat) :
    (m.setMetatable id mt).Renumbers ρ (n.setMetatable (ρ.table id) (mt.map ρ.table)) :=
  h.modifyTable id fun _ => rfl

theorem withPrinted (h : m.Renumbers ρ n) (f : Output → Output) :
    ({ m with printed := f m.printed } : Memory).Renumbers ρ { n with printed := f n.printed } :=
  { h with printed := congrArg f h.printed }

theorem withCell (h : m.Renumbers ρ n) (id : Nat) (c : Cell) :
    ({ m with cells := Script.replaced m.cells id c } : Memory).Renumbers ρ
      { n with cells := Script.replaced n.cells (ρ.cell id) (c.renumber ρ) } :=
  { h with cells := h.cells.replaced ρ.cell_injective id c }

end Memory.Renumbers

/-! ## Memory in which more was made -/

/-- Everything that one memory holds stands in the other one under the same numbers. -/
structure Memory.Extends (m n : Memory) : Prop where
  tables : ∀ i < m.tables.size, n.tables[i]? = m.tables[i]?
  cells : ∀ i < m.cells.size, n.cells[i]? = m.cells[i]?
  closures : ∀ i < m.closures.size, n.closures[i]? = m.closures[i]?
  failures : ∀ i < m.failures.size, n.failures[i]? = m.failures[i]?
  printed_eq : n.printed = m.printed
  addresses_eq : n.addresses = m.addresses

/-- Numbers from one on, moved up. -/
def movedFrom (start distance i : Nat) : Nat := if i < start then i else i + distance

theorem movedFrom_injective (start distance : Nat) : (movedFrom start distance).Injective := by
  intro i j h
  unfold movedFrom at h
  split at h <;> split at h <;> omega

theorem movedFrom_of_lt {start i : Nat} (h : i < start) (distance : Nat) : movedFrom start distance i = i :=
  if_pos h

/-- What an array has before all else keeps its number, and what follows comes behind the rest. -/
theorem Renumbers.of_leading {α : Type} {as bs : Array α} (h : ∀ i < as.size, bs[i]? = as[i]?) {f : α → α}
    (hf : ∀ a ∈ as, f a = a) : Renumbers (movedFrom as.size (bs.size - as.size)) f as bs := by
  have hsize := size_le_of_leading h
  refine ⟨fun i => ?_, fun i => ?_⟩
  · by_cases hi : i < as.size
    · rw [movedFrom_of_lt hi, h i hi, Array.getElem?_eq_getElem hi, Option.map_some,
        hf _ (Array.getElem_mem hi)]
    · rw [movedFrom, if_neg hi, Array.getElem?_eq_none (by omega), Array.getElem?_eq_none (by omega),
        Option.map_none]
  · rw [movedFrom, if_neg (by omega)]
    omega

/-- What comes later is numbered from behind the larger memory on. -/
def Renumbering.past (m n : Memory) (htables : Memory.stringMetatable < m.tables.size)
    (hcells : 0 < m.cells.size) : Renumbering where
  table := movedFrom m.tables.size (n.tables.size - m.tables.size)
  closure := movedFrom m.closures.size (n.closures.size - m.closures.size)
  failure := movedFrom m.failures.size (n.failures.size - m.failures.size)
  cell := movedFrom m.cells.size (n.cells.size - m.cells.size)
  table_injective := movedFrom_injective _ _
  closure_injective := movedFrom_injective _ _
  failure_injective := movedFrom_injective _ _
  cell_injective := movedFrom_injective _ _
  table_library _ hid := movedFrom_of_lt (Nat.lt_of_le_of_lt hid htables) _
  cell_zero := movedFrom_of_lt hcells _

theorem ite_movedFrom {address late : Nat → Nat} {start stop : Nat} (h : start ≤ stop) (id : Nat) :
    (if movedFrom start (stop - start) id < stop then address (movedFrom start (stop - start) id)
      else late (movedFrom start (stop - start) id - stop)) =
        if id < start then address id else late (id - start) := by
  unfold movedFrom
  by_cases hid : id < start
  · simp only [if_pos hid, if_pos (Nat.lt_of_lt_of_le hid h)]
  · simp only [if_neg hid, if_neg (show ¬id + (stop - start) < stop by omega)]
    exact congrArg late (by omega)

/-- Two memories in which the same is found go on alike, if what is made from now on lies at the same places in
both. -/
theorem Memory.Extends.renumbers_settle {m n : Memory} (h : m.Extends n)
    (htables : stringMetatable < m.tables.size) (hcells : 0 < m.cells.size)
    (hfixed : ∀ t ∈ m.tables, t.renumber (.past m n htables hcells) = t)
    (hapart : ∀ c ∈ m.cells, c.renumber (.past m n htables hcells) = c)
    (hclosures : ∀ f ∈ m.closures, f.renumber (.past m n htables hcells) = f) (late : Places) :
    (m.settle late).Renumbers (.past m n htables hcells) (n.settle late) where
  tables := .of_leading h.tables hfixed
  cells := .of_leading h.cells hapart
  closures := .of_leading h.closures hclosures
  failures := .of_leading h.failures fun _ _ => rfl
  printed := h.printed_eq
  tableAddress id := by
    simp only [settle, withAddresses, Places.behind, h.addresses_eq]
    exact ite_movedFrom (size_le_of_leading h.tables) id
  closureAddress id := by
    simp only [settle, withAddresses, Places.behind, h.addresses_eq]
    exact ite_movedFrom (size_le_of_leading h.closures) id
  builtinAddress := by simp only [settle, withAddresses, h.addresses_eq]

end BuildComposition.Script
