import BuildComposition.Script.Table
import Mathlib.Data.List.Basic

/-!
# What tables hold

No operation on a table invents a value: what a table holds afterwards was in it before, or was put
in, or is a value that refers to nothing.  A condition that all of these satisfy is thus kept,
wherever the layout puts the entries.

## Main definitions

* `Value.isPlain`: a value that refers to nothing
* `Table.Holds`: a table without metatable in which a condition holds of all keys and values

## Main results

* `Table.Holds.get`: what is read satisfies the condition
* `Table.Holds.set`, `Table.Holds.setItems`: what is written has to satisfy it
* `Table.Holds.make`, `Table.Holds.ofFields`: new tables
-/

namespace BuildComposition.Script

/-- The value is no function and refers to nothing in memory. -/
def Value.isPlain : Value → Bool
  | .nil | .bool _ | .int _ | .float _ | .str _ => true
  | _ => false

theorem mem_replaced {α : Type} {as : Array α} {i : Nat} {a b : α} (h : b ∈ replaced as i a) :
    b ∈ as ∨ b = a :=
  Array.mem_or_eq_of_mem_setIfInBounds h

theorem mem_altered {α : Type} {as : Array α} {i : Nat} {f : α → α} {b : α}
    (h : b ∈ altered as i f) : b ∈ as ∨ ∃ a ∈ as, b = f a := by
  unfold altered at h
  obtain ⟨j, hj, hb⟩ := Array.mem_iff_getElem.mp h
  have hj : j < as.size := by simpa using hj
  rw [Array.getElem_modify] at hb
  split at hb
  · exact .inr ⟨as[j], Array.getElem_mem hj, hb.symm⟩
  · exact .inl (hb ▸ Array.getElem_mem hj)

theorem mem_getD_or_eq {α : Type} (as : Array α) (i : Nat) (a : α) :
    as.getD i a ∈ as ∨ as.getD i a = a := by
  rw [Array.getD_eq_getD_getElem?]
  cases h : as[i]? with
  | none => exact .inr rfl
  | some b => exact .inl (Array.mem_of_getElem? h)

/-- An array that begins with another one is no shorter. -/
theorem size_le_of_leading {α : Type} {as bs : Array α} (h : ∀ i < as.size, bs[i]? = as[i]?) :
    as.size ≤ bs.size := by
  by_contra hlt
  have hsame := h bs.size (by omega)
  rw [Array.getElem?_eq_none (Nat.le_refl _), Array.getElem?_eq_getElem (by omega)] at hsame
  cases hsame

namespace Table

/-- The table has no metatable, and its keys and values satisfy a condition. -/
structure Holds (P : Value → Prop) (t : Table) : Prop where
  slots : ∀ v ∈ t.slots, P v
  nodes : ∀ n, some n ∈ t.nodes → P n.key.value ∧ P n.value
  metatable : t.metatable = none

namespace Holds

variable {P : Value → Prop} {t : Table}

theorem empty : Table.empty.Holds P :=
  ⟨by simp [Table.empty], by simp [Table.empty], rfl⟩

theorem of_getD {i : Nat} {n : Node} (h : t.Holds P) (hn : t.nodes.getD i none = some n) :
    P n.key.value ∧ P n.value := by
  rcases mem_getD_or_eq t.nodes i none with hmem | hnone
  · exact h.nodes n (hn ▸ hmem)
  · rw [hnone] at hn
    cases hn

/-- What is read satisfies the condition. -/
theorem get (h : t.Holds P) (hnil : P .nil) (k : Key) : P (t.get k) := by
  unfold Table.get
  split
  · next i _ =>
    rcases mem_getD_or_eq t.slots i .nil with hmem | heq
    · exact h.slots _ hmem
    · rw [heq]
      exact hnil
  · split
    · unfold nodeValue
      split
      · next hn => exact (h.nodes _ (Array.mem_of_getElem? hn)).2
      · exact hnil
    · exact hnil

theorem touch (h : t.Holds P) (k : Key) : (t.touch k).Holds P := by
  unfold Table.touch
  split
  · split
    · exact ⟨h.slots, h.nodes, h.metatable⟩
    · exact h
  · exact h

/-! ## Single places -/

theorem withSlot (h : t.Holds P) {v : Value} (hv : P v) (i : Nat) :
    ({ t with slots := replaced t.slots i v } : Table).Holds P where
  slots w hw := by
    rcases mem_replaced hw with hw | rfl
    · exact h.slots w hw
    · exact hv
  nodes := h.nodes
  metatable := h.metatable

theorem withNode (h : t.Holds P) {n : Node} (hkey : P n.key.value) (hvalue : P n.value) (i : Nat) :
    ({ t with nodes := replaced t.nodes i (some n) } : Table).Holds P where
  slots := h.slots
  nodes m hm := by
    rcases mem_replaced hm with hm | heq
    · exact h.nodes m hm
    · cases heq
      exact ⟨hkey, hvalue⟩
  metatable := h.metatable

theorem modifyNode (h : t.Holds P) {f : Node → Node}
    (hf : ∀ n, P n.key.value ∧ P n.value → P (f n).key.value ∧ P (f n).value) (i : Nat) :
    (t.modifyNode i f).Holds P where
  slots := h.slots
  nodes m hm := by
    rcases mem_altered hm with hm | ⟨old, hold, heq⟩
    · exact h.nodes m hm
    · cases old with
      | none => cases heq
      | some n =>
        cases heq
        exact hf n (h.nodes n hold)
  metatable := h.metatable

theorem putNode (h : t.Holds P) {v : Value} (hv : P v) (i : Nat) :
    (t.modifyNode i fun node => { node with value := v }).Holds P :=
  h.modifyNode (f := fun node => { node with value := v }) (fun _ hn => ⟨hn.1, hv⟩) i

theorem linkNode (h : t.Holds P) (next : Option Nat) (i : Nat) :
    (t.modifyNode i fun node => { node with next }).Holds P :=
  h.modifyNode (f := fun node => { node with next }) (fun _ hn => hn) i

/-! ## Scattering -/

section

variable {k : Key} {v : Value}

theorem scatterBeside (h : t.Holds P) {other : Node}
    (hother : P other.key.value ∧ P other.value) (hk : P k.value) (hv : P v) (free : Nat) :
    (t.scatterBeside other free k v).Holds P := by
  have hfree : ({ t with freeBelow := free } : Table).Holds P := ⟨h.slots, h.nodes, h.metatable⟩
  unfold Table.scatterBeside
  dsimp only
  -- either the new node takes the free place, or the one that stands in its way is moved there
  split
  · exact (hfree.withNode hk hv free).linkNode _ _
  · exact ((hfree.linkNode _ _).withNode hother.1 hother.2 free).withNode hk hv _

theorem scatter (h : t.Holds P) (hk : P k.value) (hv : P v) : (t.scatter k v).Holds P := by
  unfold Table.scatter
  dsimp only
  split
  · exact h.withNode (n := ⟨k, v, _⟩) hk hv _
  · next other hother =>
    split
    · exact h
    · have hother : t.nodes.getD (k.mainNode t.nodes.size) none = some other :=
        (Option.filter_eq_some_iff.mp hother).1
      exact h.scatterBeside (h.of_getD hother) hk hv _

theorem place (h : t.Holds P) (hk : P k.value) (hv : P v) : (t.place k v).Holds P := by
  unfold Table.place
  split
  · exact h.withSlot hv _
  · split
    · exact h.putNode hv _
    · split
      · exact h.scatter hk hv
      · exact h

/-! ## Layout -/

variable (hplain : ∀ v : Value, v.isPlain = true → P v)

include hplain

theorem placeItems {vs : List Value} (h : t.Holds P) (hvs : ∀ v ∈ vs, P v) (n : Nat) :
    (t.placeItems n vs).Holds P := by
  induction vs generalizing t n with
  | nil => exact h
  | cons v vs ih =>
    refine ih ?_ (fun w hw => hvs w (List.mem_cons_of_mem v hw)) (n + 1)
    split
    · exact h.place (hplain _ rfl) (hvs v List.mem_cons_self)
    · exact h

omit hplain in
theorem placeNodes {nodes : List (Option Node)} (h : t.Holds P)
    (hnodes : ∀ n, some n ∈ nodes → P n.key.value ∧ P n.value) : (t.placeNodes nodes).Holds P := by
  induction nodes generalizing t with
  | nil => exact h
  | cons node rest ih =>
    have hrest : ∀ n, some n ∈ rest → P n.key.value ∧ P n.value :=
      fun n hn => hnodes n (List.mem_cons_of_mem node hn)
    cases node with
    | none => exact ih h hrest
    | some n =>
      refine ih ?_ hrest
      split
      · have hn := hnodes n List.mem_cons_self
        exact h.place hn.1 hn.2
      · exact h

/-- A new layout holds what the old one did. -/
theorem resize (h : t.Holds P) (slots nodes : Nat) : (t.resize slots nodes).Holds P := by
  have hpart : ∀ {i j v}, v ∈ t.slots.extract i j → P v := by
    intro i j v hv
    obtain ⟨n, hn, rfl⟩ := Array.mem_extract_iff_getElem.mp hv
    exact h.slots _ (Array.getElem_mem _)
  unfold Table.resize
  refine placeNodes ?_ fun n hn => h.nodes n (Array.mem_toList_iff.mp hn)
  refine placeItems hplain ?_ (fun v hv => hpart (Array.mem_toList_iff.mp hv)) _
  -- the bare table has the slots that are kept, empty ones behind them, and no nodes
  refine ⟨fun v hv => ?_, fun n hn => ?_, h.metatable⟩
  · rcases Array.mem_append.mp hv with hv | hv
    · exact hpart hv
    · rw [(Array.mem_replicate.mp hv).2]
      exact hplain _ rfl
  · cases (Array.mem_replicate.mp hn).2

theorem make (items entries : Nat) : (Table.make items entries).Holds P :=
  empty.resize hplain items entries

/-- What is written has to satisfy the condition. -/
theorem set (h : t.Holds P) (hk : P k.value) (hv : P v) : (t.set k v).Holds P := by
  have htouched := h.touch k
  unfold Table.set
  dsimp only
  split
  · exact htouched.withSlot hv _
  · split
    · exact htouched.putNode hv _
    · split
      · exact htouched
      · split
        · exact htouched.scatter hk hv
        · exact (htouched.resize hplain _ _).place hk hv

theorem ofEntries {entries : List (Key × Value)}
    (h : ∀ e ∈ entries, P e.1.value ∧ P e.2) : (Table.ofEntries entries).Holds P := by
  unfold Table.ofEntries
  -- the entries are put in one by one, so that the induction is over all tables
  generalize ht : Table.empty = t
  have hbefore : t.Holds P := ht ▸ empty
  clear ht
  induction entries generalizing t with
  | nil => exact hbefore
  | cons e entries ih =>
    have he := h e List.mem_cons_self
    exact ih (fun e' he' => h e' (List.mem_cons_of_mem e he')) _ (hbefore.set hplain he.1 he.2)

theorem ofFields {fields : List (String × Value)} (h : ∀ f ∈ fields, P f.2) :
    (Table.ofFields fields).Holds P := by
  refine ofEntries hplain fun e he => ?_
  obtain ⟨f, hf, rfl⟩ := List.mem_map.mp he
  exact ⟨hplain _ rfl, h f hf⟩

omit hplain in
theorem mem_fill {slots : Array Value} {i : Nat} {vs : List Value} (hslots : ∀ v ∈ slots, P v)
    (hvs : ∀ v ∈ vs, P v) : ∀ v ∈ Table.fill slots i vs, P v := by
  induction vs generalizing slots i with
  | nil => exact hslots
  | cons v vs ih =>
    refine ih (fun w hw => ?_) fun w hw => hvs w (List.mem_cons_of_mem v hw)
    rcases Array.mem_or_eq_of_mem_setIfInBounds hw with hw | rfl
    · exact hslots w hw
    · exact hvs w List.mem_cons_self

theorem setItems {vs : List Value} (h : t.Holds P) (hvs : ∀ v ∈ vs, P v) (offset : Nat) :
    (t.setItems offset vs).Holds P := by
  have hroom : (if t.slots.size < offset + vs.length then t.resize (offset + vs.length) t.nodes.size
      else t).Holds P := by
    split
    · exact h.resize hplain _ _
    · exact h
  exact ⟨mem_fill hroom.slots hvs, hroom.nodes, hroom.metatable⟩

end

end Holds

end Table

end BuildComposition.Script
