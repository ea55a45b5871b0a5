import BuildComposition.Proofs.Script.Metamethods

/-!
# Reading tables

Reading a table moves at most the place from which its length is searched next, so what is read does not
depend on what was read before.  The entries of a table without a metatable, and the items of any table,
are a function of the memory that the reading starts from.

## Main definitions

* `Memory.Agrees`: memories whose tables have the same entries, metatables and addresses
* `Finds`: an action that gives a value and leaves the entries of all tables as they are
* `Table.items`, `Table.Lists`: the items of a table, as a function and as a property

## Main results

* `Finds.peek`, `Finds.items`, `Finds.fieldOf`: what is read
* `Table.mem_keys`: whatever a table has is under one of its keys
* `Table.lists_items`, `Table.ListsFrom.unique`: the items are the values under `1, 2, …` up to the first `nil`
-/

namespace BuildComposition.Script

/-! ## The same entries -/

/-- The tables of two memories have the same entries and metatables, and lie at the same addresses. -/
structure Memory.Agrees (m n : Memory) : Prop where
  addresses_eq : m.addresses = n.addresses
  get_eq : ∀ id k, (m.table id).get k = (n.table id).get k
  keys_eq : ∀ id, m.keys id = n.keys id
  metatable_eq : ∀ id, m.metatable id = n.metatable id

theorem Memory.Agrees.refl (m : Memory) : m.Agrees m := ⟨rfl, fun _ _ => rfl, fun _ => rfl, fun _ => rfl⟩

theorem Memory.Agrees.trans {m n o : Memory} (h : m.Agrees n) (h' : n.Agrees o) : m.Agrees o where
  addresses_eq := h.addresses_eq.trans h'.addresses_eq
  get_eq id k := (h.get_eq id k).trans (h'.get_eq id k)
  keys_eq id := (h.keys_eq id).trans (h'.keys_eq id)
  metatable_eq id := (h.metatable_eq id).trans (h'.metatable_eq id)

/-- What a table has does not depend on where its length is searched. -/
theorem Table.findFrom_limit (t : Table) (limit : Nat) (k : Key) (fuel i : Nat) :
    { t with limit }.findFrom k fuel i = t.findFrom k fuel i := by
  induction fuel generalizing i with
  | zero => rfl
  | succ fuel ih =>
    simp only [findFrom, ih]

theorem Table.get_limit (t : Table) (limit : Nat) (k : Key) : { t with limit }.get k = t.get k := by
  have hnode : { t with limit }.node? k = t.node? k := by
    simp only [node?, findFrom_limit]
  simp only [get, slot?, hnode, nodeValue]

/-- An access changes a table only in where its length is searched. -/
theorem Memory.table_touch (m : Memory) (id : Nat) (k : Key) (other : Nat) :
    ∃ limit, (m.touch id k).table other = { m.table other with limit } := by
  have hsame : m.table other = { m.table other with limit := (m.table other).limit } := rfl
  unfold touch
  split
  · split
    · rw [table_modifyTable]
      split
      · rw [Table.touch]
        split
        · split
          · exact ⟨_, rfl⟩
          · exact ⟨_, hsame⟩
        · exact ⟨_, hsame⟩
      · exact ⟨_, hsame⟩
    · exact ⟨_, hsame⟩
  · exact ⟨_, hsame⟩

theorem Memory.agrees_touch (m : Memory) (id : Nat) (k : Key) : (m.touch id k).Agrees m where
  addresses_eq := by
    unfold touch
    split
    · split <;> rfl
    · rfl
  get_eq other k' := by
    obtain ⟨limit, htable⟩ := m.table_touch id k other
    rw [htable, Table.get_limit]
  keys_eq other := by
    obtain ⟨limit, htable⟩ := m.table_touch id k other
    rw [keys, htable]
    rfl
  metatable_eq other := by
    obtain ⟨limit, htable⟩ := m.table_touch id k other
    rw [metatable, htable]
    rfl

/-! ## Actions that read -/

/-- On every machine with the entries of a memory, the action gives a value and leaves the entries as they
are. -/
def Finds {σ α : Type} (memory : Memory) (x : Run σ α) (a : α) : Prop :=
  ∀ m : Machine σ, m.memory.Agrees memory → ∃ t, x.run m = .ok a t ∧ t.memory.Agrees memory

namespace Finds

variable {σ α β : Type} {memory : Memory}

theorem pure (a : α) : Finds memory (Pure.pure a : Run σ α) a := fun m hm => ⟨m, rfl, hm⟩

theorem bind {x : Run σ α} {f : α → Run σ β} {a : α} {b : β} (hx : Finds memory x a)
    (hf : Finds memory (f a) b) : Finds memory (x >>= f) b := by
  intro m hm
  obtain ⟨t, ht, hagrees⟩ := hx m hm
  rw [EStateM.run_bind, ht]
  exact hf t hagrees

theorem map {x : Run σ α} (f : α → β) {a : α} (hx : Finds memory x a) : Finds memory (f <$> x) (f a) := by
  rw [map_eq_pure_bind]
  exact hx.bind (pure _)

/-- Nothing has to be done about a failure. -/
theorem tryCatch {x : Run σ α} {a : α} (hx : Finds memory x a) (handler : Fault → Run σ α) :
    Finds memory (MonadExcept.tryCatch x handler) a := by
  intro m hm
  obtain ⟨t, ht, hagrees⟩ := hx m hm
  exact ⟨t, run_tryCatch_of_ok ht, hagrees⟩

theorem load {f : Memory → α} (h : ∀ m : Memory, m.Agrees memory → f m = f memory) :
    Finds memory (load f : Run σ α) (f memory) := by
  intro m hm
  refine ⟨m, ?_, hm⟩
  rw [← h m.memory hm]
  rfl

theorem peek (id : Nat) (key : Value) : Finds memory (peek id key : Run σ Value) (memory.rawGet id key) := by
  have hload : ∀ k, Finds memory (Script.load fun m => (m.table id).get k : Run σ Value)
      ((memory.table id).get k) :=
    fun k => load fun m hm => hm.get_eq id k
  unfold Script.peek Memory.rawGet
  split
  · next n hkey =>
    rw [hkey]
    refine bind (a := ()) (fun m hm => ?_) (hload _)
    exact ⟨_, rfl, (m.memory.agrees_touch id (.int n)).trans hm⟩
  · next k _ hkey =>
    rw [hkey]
    exact hload k
  · next hkey =>
    rw [hkey]
    exact pure _

/-- A field of a table without a metatable is what the table has. -/
theorem fieldOf {id : Nat} (h : memory.metatable id = none) (invoke : Invoke σ) (caller : Caller)
    (name : String) :
    Finds memory (fieldOf invoke caller id name) ((memory.table id).get (.str (bytes name))) := by
  unfold Script.fieldOf
  refine bind (load fun m hm => hm.metatable_eq id) ?_
  rw [h]
  exact peek id (.ofString name)

end Finds

/-! ## Entries -/

namespace Table

theorem slot?_eq_some {t : Table} {k : Key} {i : Nat} (h : t.slot? k = some i) :
    k = .ofNat (i + 1) ∧ i < t.slots.size := by
  unfold slot? at h
  split at h
  · next n hn =>
    unfold Key.slotNumber? at hn
    split at hn
    · next x =>
      split at hn
      · next hx =>
        rw [Option.some.injEq] at hn
        split at h
        · rw [Option.some.injEq] at h
          have hi : (i + 1 : Int) = x.toInt := by omega
          refine ⟨?_, by omega⟩
          rw [Key.ofNat, Key.int.injEq, ← Int64.ofInt_toInt x, ← hi]
          rfl
        · cases h
      · cases hn
    · cases hn
  · cases h

theorem findFrom_eq_some {t : Table} {k : Key} {fuel i j : Nat} (h : t.findFrom k fuel i = some j) :
    ∃ node, t.nodes[j]? = some (some node) ∧ node.key = k := by
  induction fuel generalizing i with
  | zero => cases h
  | succ fuel ih =>
    unfold findFrom at h
    split at h
    · next node hnode =>
      split at h
      · next hkey =>
        rw [Option.some.injEq] at h
        exact ⟨node, h ▸ hnode, hkey⟩
      · split at h
        · exact ih h
        · cases h
    · cases h

/-- Whatever a table has is under one of its keys. -/
theorem mem_keys {t : Table} {k : Key} (h : t.get k ≠ .nil) : k ∈ t.keys := by
  have hpresent : ∀ v : Value, v ≠ .nil → v.present = true := by
    intro v hv
    cases v <;> first | rfl | exact absurd rfl hv
  unfold get at h
  rw [keys, List.mem_append]
  split at h
  · next i hi =>
    obtain ⟨rfl, hsize⟩ := slot?_eq_some hi
    left
    rw [Array.getD_eq_getD_getElem?, Array.getElem?_eq_getElem hsize, Option.getD_some] at h
    rw [slotKeys, List.mem_filterMap]
    refine ⟨(t.slots[i], i + 1), ?_, by simp [hpresent _ h]⟩
    rw [List.mk_mem_zipIdx_iff_le_and_getElem?_sub]
    simp [hsize]
  · split at h
    · next i hi =>
      right
      unfold node? at hi
      split at hi
      · cases hi
      obtain ⟨node, hnode, rfl⟩ := findFrom_eq_some hi
      have hvalue : node.value ≠ .nil := by
        rw [nodeValue, hnode] at h
        exact h
      rw [nodeKeys, List.mem_filterMap]
      refine ⟨some node, ?_, by simp [hpresent _ hvalue]⟩
      exact Array.mem_toList_iff.mpr (Array.mem_of_getElem? hnode)
    · exact absurd rfl h

end Table

/-! ## Items -/

namespace Table

/-- At most so many values under `n, n + 1, …` up to the first `nil`. -/
def itemsFrom (t : Table) : Nat → Nat → List Value
  | 0, _ => []
  | fuel + 1, n =>
    match t.getNat n with
    | .nil => []
    | v => v :: t.itemsFrom fuel (n + 1)

/-- The values under `1, 2, …` up to the first `nil`. -/
def items (t : Table) : List Value := t.itemsFrom lastIndex 1

/-- Some values are those under `n, n + 1, …` up to the first `nil`, or up to the last index, which comes
`fuel` places later. -/
structure ListsFrom (t : Table) (fuel n : Nat) (vs : List Value) : Prop where
  length_le : vs.length ≤ fuel
  getNat_eq : ∀ i (h : i < vs.length), t.getNat (n + i) = vs[i]
  ne_nil : ∀ v ∈ vs, v ≠ .nil
  ends : vs.length < fuel → t.getNat (n + vs.length) = .nil

/-- Some values are the items of a table: those under `1, 2, …` up to the first `nil`, or up to the last
index that there is. -/
abbrev Lists (t : Table) (vs : List Value) : Prop := t.ListsFrom lastIndex 1 vs

theorem itemsFrom_succ {t : Table} {n : Nat} {v : Value} (hv : t.getNat n = v) (h : v ≠ .nil)
    (fuel : Nat) : t.itemsFrom (fuel + 1) n = v :: t.itemsFrom fuel (n + 1) := by
  rw [itemsFrom]
  split
  · next hnil => exact absurd (hv.symm.trans hnil) h
  · rw [hv]

theorem listsFrom_itemsFrom (t : Table) (fuel n : Nat) : t.ListsFrom fuel n (t.itemsFrom fuel n) := by
  induction fuel generalizing n with
  | zero => exact ⟨Nat.le_refl 0, by simp [itemsFrom], by simp [itemsFrom], by simp [itemsFrom]⟩
  | succ fuel ih =>
    by_cases hnil : t.getNat n = .nil
    · have hitems : t.itemsFrom (fuel + 1) n = [] := by
        rw [itemsFrom, hnil]
      rw [hitems]
      exact ⟨Nat.zero_le _, by simp, by simp, fun _ => hnil⟩
    · obtain ⟨hlength, hget, hne, hends⟩ := ih (n + 1)
      rw [itemsFrom_succ rfl hnil]
      refine ⟨?_, fun i hi => ?_, ?_, fun hlt => ?_⟩
      · rw [List.length_cons]
        omega
      · cases i with
        | zero => rfl
        | succ i =>
          have hi : i < (t.itemsFrom fuel (n + 1)).length := by simpa using hi
          rw [List.getElem_cons_succ, ← hget i hi, Nat.add_right_comm n 1 i, Nat.add_assoc]
      · rintro v (_ | ⟨_, hv⟩)
        · exact hnil
        · exact hne v hv
      · rw [List.length_cons] at hlt ⊢
        rw [← hends (by omega), Nat.add_right_comm n 1, Nat.add_assoc]

/-- The items of a table are its items. -/
theorem lists_items (t : Table) : t.Lists t.items := t.listsFrom_itemsFrom lastIndex 1

/-- A table has one list of items. -/
theorem ListsFrom.unique {t : Table} {fuel n : Nat} {vs ws : List Value} (h : t.ListsFrom fuel n vs)
    (h' : t.ListsFrom fuel n ws) : vs = ws := by
  -- the shorter list would end at a value of the longer one
  have hle : ∀ {vs ws : List Value}, t.ListsFrom fuel n vs → t.ListsFrom fuel n ws →
      vs.length ≤ ws.length := by
    intro vs ws h h'
    refine Nat.not_lt.mp fun hlt => ?_
    have hnil := h'.ends (Nat.lt_of_lt_of_le hlt h.length_le)
    rw [h.getNat_eq ws.length hlt] at hnil
    exact h.ne_nil _ (List.getElem_mem hlt) hnil
  apply List.ext_getElem (Nat.le_antisymm (hle h h') (hle h' h))
  intro i hi hi'
  rw [← h.getNat_eq i hi, h'.getNat_eq i hi']

theorem Lists.items_eq {t : Table} {vs : List Value} (h : t.Lists vs) : t.items = vs :=
  t.lists_items.unique h

end Table

namespace Finds

variable {σ : Type} {memory : Memory}

theorem itemsFrom (id fuel n : Nat) (read : List Value) :
    Finds memory (itemsFrom id fuel n read : Run σ (List Value))
      (read.reverse ++ (memory.table id).itemsFrom fuel n) := by
  induction fuel generalizing n read with
  | zero =>
    rw [Table.itemsFrom, List.append_nil]
    exact pure _
  | succ fuel ih =>
    have hpeek : Finds memory (Script.peek id (.int (Int64.ofNat n)) : Run σ Value)
        ((memory.table id).getNat n) := peek id _
    rw [Script.itemsFrom]
    refine hpeek.bind ?_
    split
    · next hnil =>
      rw [Table.itemsFrom, hnil, List.append_nil]
      exact pure _
    · next hne =>
      have hitems := ih (n + 1) ((memory.table id).getNat n :: read)
      rw [List.reverse_cons, List.append_assoc, List.singleton_append] at hitems
      rw [Table.itemsFrom_succ rfl hne]
      exact hitems

theorem items (id : Nat) :
    Finds memory (items id : Run σ (List Value)) (memory.table id).items :=
  itemsFrom id lastIndex 1 []

end Finds

end BuildComposition.Script
