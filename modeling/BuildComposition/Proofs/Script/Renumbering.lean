import BuildComposition.Proofs.Script.TableContents
import BuildComposition.Script.Interpreter
import Mathlib.Logic.Function.Basic

/-!
# Other numbers

Tables, functions, captured variables and failures are numbered in the order in which a run makes them.
The numbers are no more than names: operators give the same under other numbers, as long as these keep
different things apart.  The tables of the library keep their numbers, which the library itself uses.

## Main definitions

* `Renumbering`: other numbers for what is in memory
* `Value.renumber`, `Key.renumber`, `Fault.renumber`: values under other numbers

## Main results

* `Value.renumber_of_isPlain`: a value that refers to nothing stays as it is
* `renumber_arithmetic`, `Relation.holds_renumber`, `Range.renumber_begin`: operators and loops
* `ConversionFault.of_renumber`: conversions
-/

namespace BuildComposition.Script

/-! ## Numbers -/

theorem isPlain_of_decimal? {cs : List Char} {v : Value} (h : Numeral.decimal? cs = some v) :
    v.isPlain = true := by
  unfold Numeral.decimal? at h
  dsimp only at h
  split at h
  · cases h
  split at h
  · split at h <;> cases h <;> rfl
  · split at h
    · obtain ⟨e, -, rfl⟩ := Option.map_eq_some_iff.mp h
      rfl
    · cases h

theorem isPlain_of_hexadecimal? {cs : List Char} {v : Value}
    (h : Numeral.hexadecimal? cs = some v) : v.isPlain = true := by
  unfold Numeral.hexadecimal? at h
  dsimp only at h
  split at h
  · cases h
  split at h
  · split at h <;> cases h <;> rfl
  · split at h
    · obtain ⟨e, -, rfl⟩ := Option.map_eq_some_iff.mp h
      rfl
    · cases h

theorem isPlain_of_unsigned? {cs : List Char} {v : Value} (h : Numeral.unsigned? cs = some v) :
    v.isPlain = true := by
  unfold Numeral.unsigned? at h
  split at h
  · exact isPlain_of_hexadecimal? h
  · exact isPlain_of_hexadecimal? h
  · exact isPlain_of_decimal? h

theorem isPlain_negative {v : Value} (h : v.isPlain = true) : (Numeral.negative v).isPlain = true := by
  cases v <;> exact h

/-- What a value stands for in arithmetic refers to nothing. -/
theorem isPlain_of_number? {v n : Value} (h : number? v = some n) : n.isPlain = true := by
  cases v with
  | str s =>
    rw [number?] at h
    unfold Numeral.ofText? Numeral.signed? at h
    dsimp only at h
    split at h
    · split at h
      · cases h
        rfl
      · obtain ⟨w, hw, rfl⟩ := Option.map_eq_some_iff.mp h
        exact isPlain_negative (isPlain_of_unsigned? hw)
    · exact isPlain_of_unsigned? h
    · exact isPlain_of_unsigned? h
  | int n =>
    cases h
    rfl
  | float x =>
    cases h
    rfl
  | _ => cases h

/-! ## Values under other numbers -/

/-- Other numbers for what is in memory.  The tables of the library keep theirs, and so does the variable that
no function captures. -/
structure Renumbering where
  table : Nat → Nat
  closure : Nat → Nat
  failure : Nat → Nat
  cell : Nat → Nat
  table_injective : table.Injective
  closure_injective : closure.Injective
  failure_injective : failure.Injective
  cell_injective : cell.Injective
  table_library : ∀ id ≤ Memory.stringMetatable, table id = id
  cell_zero : cell 0 = 0

/-- The numbers as they are. -/
instance : One Renumbering :=
  ⟨⟨id, id, id, id, Function.injective_id, Function.injective_id, Function.injective_id,
    Function.injective_id, fun _ _ => rfl, rfl⟩⟩

variable (ρ : Renumbering)

/-- A value under other numbers. -/
def Value.renumber : Value → Value
  | .table id => .table (ρ.table id)
  | .closure id => .closure (ρ.closure id)
  | .failure id => .failure (ρ.failure id)
  | v => v

/-- A key under other numbers. -/
def Key.renumber : Key → Key
  | .table id => .table (ρ.table id)
  | .closure id => .closure (ρ.closure id)
  | .failure id => .failure (ρ.failure id)
  | k => k

/-- An interruption under other numbers. -/
def Fault.renumber : Fault → Fault
  | .thrown v => .thrown (v.renumber ρ)
  | .exhausted => .exhausted

/-- The values of a loop over numbers, under other numbers. -/
def Range.renumber (r : Range) : Range := ⟨r.counter.renumber ρ, r.bound.renumber ρ, r.step.renumber ρ⟩

namespace Value

@[simp] theorem renumber_one (v : Value) : v.renumber 1 = v := by cases v <;> rfl

theorem renumber_of_isPlain {v : Value} (h : v.isPlain = true) : v.renumber ρ = v := by
  cases v <;> first | rfl | cases h

@[simp] theorem renumber_eq_nil_iff {v : Value} : v.renumber ρ = .nil ↔ v = .nil := by
  cases v <;> simp [renumber]

@[simp] theorem kind_renumber (v : Value) : (v.renumber ρ).kind = v.kind := by cases v <;> rfl

@[simp] theorem holds_renumber (v : Value) : (v.renumber ρ).holds = v.holds := by cases v <;> rfl

@[simp] theorem present_renumber (v : Value) : (v.renumber ρ).present = v.present := by cases v <;> rfl

@[simp] theorem text?_renumber (v : Value) : (v.renumber ρ).text? = v.text? := by cases v <;> rfl

theorem key?_renumber (v : Value) : (v.renumber ρ).key? = v.key?.map (Key.renumber ρ) := by
  cases v with
  | float x =>
    simp only [renumber, key?]
    split
    · rfl
    · split <;> rfl
  | _ => rfl

@[simp] theorem equal_renumber (v w : Value) : (v.renumber ρ).equal (w.renumber ρ) = v.equal w := by
  cases v <;> cases w <;>
    simp [renumber, equal, ρ.table_injective.eq_iff, ρ.closure_injective.eq_iff, ρ.failure_injective.eq_iff]

end Value

namespace Key

@[simp] theorem renumber_one (k : Key) : k.renumber 1 = k := by cases k <;> rfl

theorem renumber_injective : (renumber ρ).Injective := by
  intro k l h
  cases k <;> cases l <;>
    simp_all [renumber, ρ.table_injective.eq_iff, ρ.closure_injective.eq_iff, ρ.failure_injective.eq_iff]

theorem renumber_of_value {k : Key} (h : k.value.renumber ρ = k.value) : k.renumber ρ = k := by
  cases k <;> simp_all [renumber, value, Value.renumber]

@[simp] theorem renumber_ofNat (n : Nat) : (ofNat n).renumber ρ = ofNat n := rfl

@[simp] theorem mainNode_renumber (size : Nat) (k : Key) : (k.renumber ρ).mainNode size = k.mainNode size := by
  cases k <;> rfl

@[simp] theorem slotNumber?_renumber (k : Key) : (k.renumber ρ).slotNumber? = k.slotNumber? := by
  cases k <;> rfl

end Key

@[simp] theorem Fault.renumber_one (fault : Fault) : fault.renumber 1 = fault := by
  cases fault with
  | thrown v => rw [renumber, v.renumber_one]
  | exhausted => rfl

/-- A constant refers to nothing. -/
theorem Constant.isPlain_value (c : Constant) : c.value.isPlain = true := by cases c <;> rfl

/-! ## Operators -/

section

variable {ρ : Renumbering}

@[simp] theorem number?_renumber (v : Value) : number? (v.renumber ρ) = number? v := by cases v <;> rfl

@[simp] theorem integer?_renumber (v : Value) : integer? (v.renumber ρ) = integer? v := by
  rw [integer?, integer?, number?_renumber]

/-- The number that a value stands for refers to nothing. -/
theorem renumber_of_number? {v n : Value} (h : number? v = some n) : n.renumber ρ = n :=
  Value.renumber_of_isPlain ρ (isPlain_of_number? h)

/-- Results that refer to nothing stay as they are. -/
theorem map_renumber_of_isPlain {x : Except String Value} (h : ∀ v, x = .ok v → v.isPlain = true) :
    x.map (Value.renumber ρ) = x := by
  cases x with
  | error message => rfl
  | ok v => exact congrArg Except.ok (Value.renumber_of_isPlain ρ (h v rfl))

theorem isPlain_of_onNumbers {op : ArithmeticOp} {a b v : Value} (h : onNumbers op a b = .ok v) :
    v.isPlain = true := by
  have hintegers : ∀ m n : Int64, ∀ w, onIntegers op m n = .ok (some w) → w.isPlain = true := by
    intro m n w hw
    cases op <;> simp only [onIntegers] at hw <;> first | (cases hw; rfl) | cases hw | skip
    all_goals
      split at hw <;> cases hw
      rfl
  unfold onNumbers at h
  cases a <;> cases b
  case int.int m n =>
    cases hexact : onIntegers op m n with
    | error message => simp [hexact, Bind.bind, Except.bind] at h
    | ok exact =>
      simp only [hexact, Bind.bind, Except.bind] at h
      cases exact with
      | none =>
        cases h
        rfl
      | some w =>
        cases h
        exact hintegers m n _ hexact
  all_goals
    cases h
    rfl

theorem renumber_arithmetic (op : ArithmeticOp) (v w : Value) :
    arithmetic op (v.renumber ρ) (w.renumber ρ) = (arithmetic op v w).map (Value.renumber ρ) := by
  rw [map_renumber_of_isPlain fun u hu => ?_]
  · simp only [arithmetic, number?_renumber, Value.kind_renumber]
  · unfold arithmetic at hu
    split at hu
    · exact isPlain_of_onNumbers hu
    · cases hu
    · cases hu

theorem renumber_negate (v : Value) : negate (v.renumber ρ) = (negate v).map (Value.renumber ρ) := by
  rw [map_renumber_of_isPlain fun u hu => ?_]
  · simp only [negate, number?_renumber, Value.kind_renumber]
  · unfold negate at hu
    split at hu
    · next n hn =>
      cases hu
      exact isPlain_negative (isPlain_of_number? hn)
    · cases hu

theorem renumber_concat (v w : Value) :
    concat (v.renumber ρ) (w.renumber ρ) = (concat v w).map (Value.renumber ρ) := by
  rw [map_renumber_of_isPlain fun u hu => ?_]
  · simp only [concat, Value.text?_renumber, Value.kind_renumber]
  · unfold concat at hu
    split at hu <;> cases hu
    rfl

@[simp] theorem order_renumber (v w : Value) : order (v.renumber ρ) (w.renumber ρ) = order v w := by
  cases v <;> cases w <;> rfl

@[simp] theorem Relation.holds_renumber (relation : Relation) (v w : Value) :
    relation.holds (v.renumber ρ) (w.renumber ρ) = relation.holds v w := by
  cases relation <;> simp only [holds, Value.equal_renumber, order_renumber]

/-- The values of a loop refer to nothing. -/
theorem Range.renumber_of_begin {start limit step : Value} {r : Range}
    (h : begin start limit step = .ok (some r)) : r.renumber ρ = r := by
  unfold begin at h
  split at h
  · split at h
    · cases h
    · simp only [Bind.bind, Except.bind] at h
      split at h
      · obtain ⟨left, -, rfl⟩ := Option.map_eq_some_iff.mp (Except.ok.inj h)
        rfl
      · obtain ⟨left, -, rfl⟩ := Option.map_eq_some_iff.mp (Except.ok.inj h)
        rfl
      · cases h
  · simp only [Bind.bind, Except.bind] at h
    repeat (split at h; · cases h)
    cases h
    rfl

theorem Range.renumber_begin (start limit step : Value) :
    begin (start.renumber ρ) (limit.renumber ρ) (step.renumber ρ) = begin start limit step := by
  have hdouble : ∀ part v, double part (v.renumber ρ) = double part v := by
    intro part v
    simp only [double, number?_renumber, refusal, Value.kind_renumber]
  unfold begin
  simp only [hdouble, number?_renumber, refusal, Value.kind_renumber]
  cases start <;> cases step <;> rfl

/-- What the next round starts with depends on numbers alone. -/
theorem Range.renumber_next? (r : Range) : (r.renumber ρ).next? = r.next? := by
  obtain ⟨counter, bound, step⟩ := r
  unfold next?
  cases counter <;> cases bound <;> cases step <;> rfl

theorem Range.renumber_of_next? {r s : Range} (h : r.next? = some s) : s.renumber ρ = s := by
  unfold next? at h
  split at h
  · next hcounter hbound hstep =>
    split at h
    · cases h
    · cases h
      rw [renumber, hstep]
      rfl
  · next hcounter hbound hstep =>
    dsimp only at h
    split at h <;> split at h <;> cases h
    all_goals
      rw [renumber, hbound, hstep]
      rfl
  · cases h

/-! ## Conversions -/

@[simp] theorem textOf_renumber (v : Value) : textOf (v.renumber ρ) = textOf v := by cases v <;> rfl

end

end BuildComposition.Script
