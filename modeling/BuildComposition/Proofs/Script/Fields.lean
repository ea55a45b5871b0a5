import BuildComposition.Proofs.Script.Chains
import Mathlib.Algebra.GroupWithZero.Nat
import Mathlib.Data.List.Induction
import Mathlib.Data.List.Nodup

/-!
# Fields of tables

A table that gets a value under a key keeps all its fields, however it is laid out anew: there are nodes
for every entry that has to go into one, so that none is lost.  A field is an entry under a key that is
no integer; such a key never has a slot.

## Main definitions

* `Key.IsField`: a key that is no integer
* `Table.Roomy`: a table that is laid out, with nodes for some keys
* `Table.Assigns`: a table of which one field has got a value

## Main results

* `Table.Linked.resize`: another layout has the same fields
* `Table.Linked.set`: a field has the value that it was given, and the others keep theirs
* `Table.Linked.setItems`: items are no fields
-/

namespace BuildComposition.Script

/-- The key is no integer. -/
def Key.IsField (k : Key) : Prop := ∀ n, k ≠ .int n

theorem Key.isField_str (s : Bytes) : (Key.str s).IsField := fun _ h => nomatch h

theorem Key.IsField.slotNumber?_eq {k : Key} (h : k.IsField) : k.slotNumber? = none := by
  cases k with
  | int n => exact absurd rfl (h n)
  | _ => rfl

theorem Key.IsField.ne_ofNat {k : Key} (h : k.IsField) (n : Nat) : k ≠ .ofNat n := h _

theorem le_two_pow_ceilLog2 (n : Nat) : n ≤ 2 ^ ceilLog2 n := by
  unfold ceilLog2
  split
  · omega
  · have := Nat.lt_log2_self (n := n - 1)
    omega

namespace Table

variable {t : Table} {k : Key} {v : Value}

theorem slot?_eq_none_of_isField (h : k.IsField) (t : Table) : t.slot? k = none := by
  rw [slot?, h.slotNumber?_eq]

/-- A table of which a key has got a value, with the same fields otherwise. -/
structure Assigns (t : Table) (k : Key) (v : Value) (t' : Table) : Prop where
  linked : t'.Linked
  get_self : k.IsField → t'.get k = v
  get_of_ne : ∀ l, l.IsField → l ≠ k → t'.get l = t.get l

/-- Other slots and another metatable change nothing about the nodes. -/
theorem Linked.withSlots (h : t.Linked) {t' : Table} (hslots : t'.slots.size = t.slots.size)
    (hnodes : t'.nodes = t.nodes) (hfree : t'.freeBelow = t.freeBelow) : t'.Linked := by
  have hsize : t'.nodes.size = t.nodes.size := by rw [hnodes]
  have hat : ∀ i n, t'.At i n ↔ t.At i n := fun i n => by rw [At, At, hnodes]
  refine h.of_moved (f := id) hsize (slot?_congr hslots) ?_ ?_ (fun _ _ _ _ _ _ h => h)
    (fun _ _ _ => rfl) (hfree ▸ h.freeBelow_le)
  · exact fun j m hm => ⟨j, m, (hat j m).mp hm, rfl, rfl, by simp⟩
  · exact fun j m hm => ⟨m, (hat j m).mpr hm, rfl, by simp⟩

theorem Linked.withMetatable (h : t.Linked) (metatable : Option Nat) :
    { t with metatable }.Linked := h.withSlots rfl rfl rfl

theorem entry_congr {t' : Table} (h : t'.nodes = t.nodes) (k : Key) (v : Value) :
    t'.Entry k v ↔ t.Entry k v := by
  simp only [Entry, At, h]

/-- Slots are no fields. -/
theorem Linked.get_withSlots (h : t.Linked) {t' : Table} (hslots : t'.slots.size = t.slots.size)
    (hnodes : t'.nodes = t.nodes) (hfree : t'.freeBelow = t.freeBelow) (hk : k.IsField) :
    t'.get k = t.get k :=
  h.get_congr (h.withSlots hslots hnodes hfree) (slot?_eq_none_of_isField hk t)
    (slot?_eq_none_of_isField hk t') (entry_congr hnodes k)

theorem Scatters.assigns {t' : Table} (hs : t.Scatters k v t') (h : t.Linked) : t.Assigns k v t' where
  linked := hs.linked
  get_self hk := by
    by_cases hv : v.present = true
    · exact hs.linked.get_of_entry ((hs.entry_iff k v).mpr (.inl ⟨rfl, rfl, hv⟩))
    · rw [eq_nil_of_present hv]
      refine get_of_forall_not_entry (slot?_eq_none_of_isField hk t') fun w hw => ?_
      rcases (hs.entry_iff k w).mp hw with ⟨-, -, hpresent⟩ | ⟨hne, -⟩
      · exact hv hpresent
      · exact hne rfl
  get_of_ne l hl hne := by
    refine h.get_congr hs.linked (slot?_eq_none_of_isField hl t) (slot?_eq_none_of_isField hl t')
      fun w => (hs.entry_iff l w).trans ?_
    simp [hne]

/-! ## Laying out -/

/-- A table that is laid out: its free nodes come before a place, its keys are among some, and there are
nodes for all of these. -/
structure Roomy (keys : List Key) (t : Table) : Prop where
  linked : t.Linked
  lt_freeBelow : ∀ i < t.nodes.size, (∀ n, ¬t.At i n) → i < t.freeBelow
  mem_keys : ∀ i n, t.At i n → n.key ∈ keys
  length_le : keys.length ≤ t.nodes.size

theorem freeNode?_isSome {i below : Nat} (h : i < below) (hi : ∀ n, ¬t.At i n) :
    (t.freeNode? below).isSome := by
  induction below with
  | zero => omega
  | succ below ih =>
    unfold freeNode?
    split
    · rfl
    · next hsome =>
      refine ih ?_
      have hne : i ≠ below := by
        rintro rfl
        rw [getD_eq_none hi] at hsome
        exact hsome rfl
      omega

theorem le_of_freeNode? {i below free : Nat} (h : t.freeNode? below = some free) (hlt : i < below)
    (hi : ∀ n, ¬t.At i n) : i ≤ free := by
  induction below with
  | zero => omega
  | succ below ih =>
    unfold freeNode? at h
    split at h
    · cases h
      omega
    · next hsome =>
      have hne : i ≠ below := by
        rintro rfl
        rw [getD_eq_none hi] at hsome
        exact hsome rfl
      exact ih h (by omega)

theorem exists_at_modifyNode {f : Node → Node} {i j : Nat} :
    (∃ n, (t.modifyNode i f).At j n) ↔ ∃ n, t.At j n := by
  simp only [at_modifyNode]
  exact ⟨fun ⟨_, n, hn, _⟩ => ⟨n, hn⟩, fun ⟨n, hn⟩ => ⟨_, n, hn, rfl⟩⟩

theorem exists_at_replaced {n : Node} {i j : Nat} (h : (∃ m, t.At j m) ∨ j = i ∧ i < t.nodes.size) :
    ∃ m, { t with nodes := replaced t.nodes i (some n) }.At j m := by
  simp only [at_replaced]
  by_cases hij : i = j
  · subst hij
    rcases h with ⟨m, hm⟩ | ⟨-, hi⟩
    · exact ⟨n, .inl ⟨rfl, hm.lt, rfl⟩⟩
    · exact ⟨n, .inl ⟨rfl, hi, rfl⟩⟩
  · rcases h with ⟨m, hm⟩ | ⟨rfl, -⟩
    · exact ⟨m, .inr ⟨hij, hm⟩⟩
    · exact absurd rfl hij

/-- A new key takes the free node, and every other node that was taken still is. -/
theorem exists_at_scatterBeside {other : Node} {free i : Nat} (hlt : free < t.nodes.size)
    (h : (∃ n, t.At i n) ∨ i = free) : ∃ n, (t.scatterBeside other free k v).At i n := by
  unfold scatterBeside
  dsimp only
  split
  · rw [exists_at_modifyNode]
    exact exists_at_replaced (t := { t with freeBelow := free })
      (h.imp_right fun heq => ⟨heq, hlt⟩)
  · generalize hlinked : Table.modifyNode _ _ _ = linked
    have hkeep : (∃ n, t.At i n) → ∃ n, linked.At i n := fun hi =>
      hlinked ▸ exists_at_modifyNode.mpr hi
    have hsize : linked.nodes.size = t.nodes.size := by
      rw [← hlinked]
      simp [modifyNode, altered]
    have hput := exists_at_replaced (t := linked) (n := other)
      (h.imp hkeep fun heq => ⟨heq, hsize ▸ hlt⟩)
    exact exists_at_replaced (t := { linked with nodes := replaced linked.nodes free (some other) })
      (.inl hput)

theorem Linked.of_forall_not_at (hnone : ∀ i n, ¬t.At i n) (hfree : t.freeBelow ≤ t.nodes.size) :
    t.Linked where
  next_at i _ n hn := (hnone i n hn).elim
  next_inj i _ _ n _ hn := (hnone i n hn).elim
  key_inj i _ n _ hn := (hnone i n hn).elim
  reached i n hn := (hnone i n hn).elim
  main_at i n hn := (hnone i n hn).elim
  slot?_eq i n hn := (hnone i n hn).elim
  freeBelow_le := hfree

namespace Roomy

variable {keys : List Key}

/-- If no node were free, there would be as many keys as nodes, and one more. -/
theorem exists_free (h : t.Roomy keys) (hk : k ∈ keys) (hnew : t.node? k = none) :
    ∃ i < t.nodes.size, ∀ n, ¬t.At i n := by
  by_contra hfull
  have htaken : ∀ i : Fin t.nodes.size, ∃ n, t.At i n := by
    intro i
    by_contra hi
    exact hfull ⟨i, i.isLt, fun n hn => hi ⟨n, hn⟩⟩
  choose node hnode using htaken
  let present : List Key := (List.finRange t.nodes.size).map fun i => (node i).key
  have hnodup : (k :: present).Nodup := by
    refine List.nodup_cons.mpr ⟨fun hmem => ?_, ?_⟩
    · obtain ⟨i, -, rfl⟩ := List.mem_map.mp hmem
      rw [h.linked.node?_eq (hnode i)] at hnew
      cases hnew
    · refine List.Nodup.map_on ?_ (List.nodup_finRange _)
      intro i _ j _ hkey
      exact Fin.ext (h.linked.key_inj i j _ _ (hnode i) (hnode j) hkey)
  have hsub : k :: present ⊆ keys := by
    intro l hl
    rcases List.mem_cons.mp hl with rfl | hl
    · exact hk
    · obtain ⟨i, -, rfl⟩ := List.mem_map.mp hl
      exact h.mem_keys i _ (hnode i)
  have hle := (hnodup.subperm hsub).length_le
  have := h.length_le
  simp [present] at hle
  omega

theorem hasRoom (h : t.Roomy keys) (hk : k ∈ keys) (hnew : t.node? k = none) :
    t.hasRoom k = true := by
  obtain ⟨i, hi, hfree⟩ := h.exists_free hk hnew
  have hsome := freeNode?_isSome (h.lt_freeBelow i hi hfree) hfree
  have hempty : t.nodes.isEmpty = false := by
    simp only [Array.isEmpty_eq_false_iff]
    rintro hnil
    rw [hnil] at hi
    exact absurd hi (by simp)
  simp [Table.hasRoom, hempty, hsome]

/-- A new key takes one node, and the free nodes still come before a place. -/
theorem lt_freeBelow_scatter (h : t.Roomy keys) (v : Value) :
    ∀ i < (t.scatter k v).nodes.size, (∀ n, ¬(t.scatter k v).At i n) → i < (t.scatter k v).freeBelow := by
  unfold Table.scatter
  dsimp only
  split
  · intro i hi hfree
    refine h.lt_freeBelow i (by simpa [Table.occupy, replaced] using hi) fun n hn => ?_
    by_cases hki : k.mainNode t.nodes.size = i
    · exact hfree _ (at_replaced.mpr (.inl ⟨hki, hki ▸ hn.lt, rfl⟩))
    · exact hfree n (at_replaced.mpr (.inr ⟨hki, hn⟩))
  · next other _ =>
    split
    · exact h.lt_freeBelow
    · next free hsome =>
      have hlt : free < t.nodes.size :=
        Nat.lt_of_lt_of_le (freeNode?_eq_some hsome).2 h.linked.freeBelow_le
      -- every node that was taken still is, and the free one is taken now
      have hkeep : ∀ i, (∃ n, t.At i n) ∨ i = free → ∃ n, (t.scatterBeside other free k v).At i n :=
        fun _ => exists_at_scatterBeside hlt
      have hbelow : (t.scatterBeside other free k v).freeBelow = free := by
        unfold scatterBeside
        dsimp only
        split <;> rfl
      have hsize : (t.scatterBeside other free k v).nodes.size = t.nodes.size := by
        unfold scatterBeside
        dsimp only
        split <;> simp [modifyNode, altered, replaced]
      intro i hi hnone
      rw [hsize] at hi
      have hi' : ∀ n, ¬t.At i n := fun n hn => by
        obtain ⟨m, hm⟩ := hkeep i (.inl ⟨n, hn⟩)
        exact hnone m hm
      have hne : i ≠ free := fun heq => by
        obtain ⟨m, hm⟩ := hkeep i (.inr heq)
        exact hnone m hm
      have hle := le_of_freeNode? hsome (h.lt_freeBelow i hi hi') hi'
      rw [hbelow]
      omega

theorem scatter (h : t.Roomy keys) (hslot : t.slot? k = none) (hk : k ∈ keys)
    (hnew : t.node? k = none) : t.Scatters k v (t.scatter k v) ∧ (t.scatter k v).Roomy keys := by
  have hscatters := h.linked.scatter (v := v) hslot hnew (h.hasRoom hk hnew)
  refine ⟨hscatters, hscatters.linked, h.lt_freeBelow_scatter v, fun i n hn => ?_, ?_⟩
  · rcases hscatters.key_of_at i n hn with rfl | ⟨j, m, hm, hkey⟩
    · exact hk
    · exact hkey ▸ h.mem_keys j m hm
  · rw [hscatters.size_eq]
    exact h.length_le

/-- An entry for which there is room gets its place. -/
theorem place (h : t.Roomy keys) (hk : t.slot? k = none → k ∈ keys) (hv : v.present = true) :
    (t.place k v).Roomy keys ∧ (t.place k v).slots.size = t.slots.size ∧
      ∀ l, l.IsField → ∀ w, (t.place k v).Entry l w ↔ l = k ∧ w = v ∨ l ≠ k ∧ t.Entry l w := by
  unfold Table.place
  split
  · next i hi =>
    have hkey : ∀ l : Key, l.IsField → l ≠ k := by
      rintro l hl rfl
      rw [slot?_eq_none_of_isField hl] at hi
      cases hi
    have hsize : (replaced t.slots i v).size = t.slots.size := by simp [replaced]
    refine ⟨⟨h.linked.withSlots hsize rfl rfl, h.lt_freeBelow, h.mem_keys, h.length_le⟩, hsize,
      fun l hl w => ?_⟩
    have hsame : ({ t with slots := replaced t.slots i v } : Table).Entry l w ↔ t.Entry l w :=
      entry_congr rfl l w
    rw [hsame]
    simp [hkey l hl]
  · next hslot =>
    split
    · next i hi =>
      obtain ⟨n, hn, rfl⟩ := at_of_node? hi
      have hput := h.linked.putNode hn v
      refine ⟨⟨hput.linked, fun j hj hfree => ?_, fun j m hm => ?_, ?_⟩, rfl, fun l _ w => ?_⟩
      · refine h.lt_freeBelow j (hput.size_eq ▸ hj) fun m hm => ?_
        exact hfree _ (at_modifyNode.mpr ⟨m, hm, rfl⟩)
      · rcases hput.key_of_at j m hm with heq | ⟨l, o, ho, hkey⟩
        · exact heq ▸ hk hslot
        · exact hkey ▸ h.mem_keys l o ho
      · rw [hput.size_eq]
        exact h.length_le
      · rw [hput.entry_iff]
        simp [hv]
    · next hnew =>
      rw [if_pos (by rw [hv, h.hasRoom (hk hslot) hnew]; rfl)]
      obtain ⟨hscatters, hroomy⟩ := h.scatter (v := v) hslot (hk hslot) hnew
      refine ⟨hroomy, by rw [hscatters.slots_eq], fun l _ w => ?_⟩
      rw [hscatters.entry_iff]
      simp [hv]

/-- Entries that agree on fields get their places one by one. -/
theorem foldl (h : t.Roomy keys) {entries : List (Key × Value)}
    (hkeys : ∀ e ∈ entries, t.slot? e.1 = none → e.1 ∈ keys)
    (hpresent : ∀ e ∈ entries, e.2.present = true)
    (hagree : ∀ e ∈ entries, ∀ e' ∈ entries, e.1.IsField → e.1 = e'.1 → e.2 = e'.2) :
    (entries.foldl (fun t e => t.place e.1 e.2) t).Roomy keys ∧
      (entries.foldl (fun t e => t.place e.1 e.2) t).slots.size = t.slots.size ∧
      ∀ l, l.IsField → ∀ w, (entries.foldl (fun t e => t.place e.1 e.2) t).Entry l w ↔
        (l, w) ∈ entries ∨ (∀ e ∈ entries, l ≠ e.1) ∧ t.Entry l w := by
  induction entries generalizing t with
  | nil => exact ⟨h, rfl, fun l _ w => by simp⟩
  | cons e entries ih =>
    obtain ⟨hplaced, hsize, hentry⟩ := h.place (hkeys e List.mem_cons_self)
      (hpresent e List.mem_cons_self)
    obtain ⟨hroomy, hsize', hentry'⟩ := ih hplaced
      (fun e' he' hslot => hkeys e' (List.mem_cons_of_mem e he') (slot?_congr hsize e'.1 ▸ hslot))
      (fun e' he' => hpresent e' (List.mem_cons_of_mem e he'))
      (fun e' he' e'' he'' =>
        hagree e' (List.mem_cons_of_mem e he') e'' (List.mem_cons_of_mem e he''))
    refine ⟨hroomy, hsize'.trans hsize, fun l hl w => ?_⟩
    rw [List.foldl_cons, hentry' l hl w, hentry l hl w]
    constructor
    · rintro (hmem | ⟨hnew, ⟨rfl, rfl⟩ | ⟨hne, hold⟩⟩)
      · exact .inl (List.mem_cons_of_mem e hmem)
      · exact .inl List.mem_cons_self
      · refine .inr ⟨fun e' he' => ?_, hold⟩
        rcases List.mem_cons.mp he' with rfl | he'
        · exact hne
        · exact hnew e' he'
    · rintro (hmem | ⟨hnew, hold⟩)
      · rcases List.mem_cons.mp hmem with rfl | hmem
        · -- a later entry under the same key has the same value
          by_cases hlater : ∀ e' ∈ entries, l ≠ e'.1
          · exact .inr ⟨hlater, .inl ⟨rfl, rfl⟩⟩
          · obtain ⟨e', he', hkey⟩ : ∃ e' ∈ entries, l = e'.1 := by
              by_contra hnone
              exact hlater fun e' he' hkey => hnone ⟨e', he', hkey⟩
            have hvalue := hagree (l, w) List.mem_cons_self e' (List.mem_cons_of_mem _ he') hl hkey
            obtain ⟨l', w'⟩ := e'
            obtain ⟨rfl, rfl⟩ : l = l' ∧ w = w' := ⟨hkey, hvalue⟩
            exact .inl he'
        · exact .inl hmem
      · exact .inr ⟨fun e' he' => hnew e' (List.mem_cons_of_mem e he'),
          .inr ⟨hnew e List.mem_cons_self, hold⟩⟩

end Roomy

/-- The values that are there among some, under numbers from some number on. -/
def itemEntries (n : Nat) (vs : List Value) : List (Key × Value) :=
  (vs.zipIdx n).filterMap fun (v, i) => if v.present then some (.ofNat i, v) else none

/-- The entries of nodes. -/
def nodeEntries (nodes : List (Option Node)) : List (Key × Value) :=
  nodes.filterMap fun node =>
    node.bind fun node => if node.value.present then some (node.key, node.value) else none

theorem placeItems_eq (t : Table) (n : Nat) (vs : List Value) :
    t.placeItems n vs = (itemEntries n vs).foldl (fun t e => t.place e.1 e.2) t := by
  induction vs generalizing t n with
  | nil => rfl
  | cons v vs ih =>
    rw [placeItems, ih]
    by_cases hv : v.present = true
    · simp [itemEntries, hv]
    · simp [itemEntries, hv]

theorem placeNodes_eq (t : Table) (nodes : List (Option Node)) :
    t.placeNodes nodes = (nodeEntries nodes).foldl (fun t e => t.place e.1 e.2) t := by
  induction nodes generalizing t with
  | nil => rfl
  | cons node nodes ih =>
    cases node with
    | none =>
      rw [placeNodes, ih]
      rfl
    | some node =>
      rw [placeNodes, ih]
      by_cases hv : node.value.present = true
      · simp [nodeEntries, hv]
      · simp [nodeEntries, hv]

theorem mem_itemEntries {n : Nat} {vs : List Value} {e : Key × Value} (h : e ∈ itemEntries n vs) :
    e.2.present = true ∧ ∃ i, e.1 = .ofNat (n + i) ∧ vs[i]? = some e.2 := by
  obtain ⟨⟨v, j⟩, hmem, he⟩ := List.mem_filterMap.mp h
  obtain ⟨hle, hget⟩ := List.mk_mem_zipIdx_iff_le_and_getElem?_sub.mp hmem
  simp only at he
  split at he
  · next hv =>
    cases he
    exact ⟨hv, j - n, by rw [Nat.add_sub_cancel' hle], hget⟩
  · cases he

theorem mem_nodeEntries {k : Key} {v : Value} : (k, v) ∈ nodeEntries t.nodes.toList ↔ t.Entry k v := by
  constructor
  · intro h
    obtain ⟨node, hmem, hnode⟩ := List.mem_filterMap.mp h
    obtain ⟨n, rfl, hn⟩ := Option.bind_eq_some_iff.mp hnode
    split at hn
    · next hv =>
      cases hn
      obtain ⟨i, hi⟩ := List.getElem?_of_mem hmem
      exact ⟨hv, i, n, by rw [At, ← hi, Array.getElem?_toList], rfl, rfl⟩
    · cases hn
  · rintro ⟨hv, i, n, hn, rfl, rfl⟩
    refine List.mem_filterMap.mpr ⟨some n, Array.mem_toList_iff.mpr (Array.mem_of_getElem? hn), ?_⟩
    simp [hv]

/-- The entries that another layout puts anew. -/
def displaced (t : Table) (slots : Nat) : List (Key × Value) :=
  itemEntries (slots + 1) (t.slots.extract slots t.slots.size).toList ++ nodeEntries t.nodes.toList

theorem present_of_mem_displaced {slots : Nat} {e : Key × Value} (h : e ∈ t.displaced slots) :
    e.2.present = true := by
  rcases List.mem_append.mp h with h | h
  · exact (mem_itemEntries h).1
  · exact (mem_nodeEntries.mp h).1

theorem entry_of_mem_displaced {slots : Nat} {e : Key × Value} (h : e ∈ t.displaced slots)
    (hfield : e.1.IsField) : t.Entry e.1 e.2 := by
  rcases List.mem_append.mp h with h | h
  · obtain ⟨-, i, hi, -⟩ := mem_itemEntries h
    exact absurd hi (hfield.ne_ofNat _)
  · exact mem_nodeEntries.mp h

/-- The key has a place among so many slots. -/
def fits (slots : Nat) (k : Key) : Bool := k.slotNumber?.any (· ≤ slots)

theorem slot?_eq_none_iff : t.slot? k = none ↔ fits t.slots.size k = false := by
  unfold slot? fits
  cases k.slotNumber? with
  | none => simp
  | some n => simp

theorem not_at_of_replicate {size : Nat} (h : t.nodes = Array.replicate size none) (i : Nat) (n : Node) :
    ¬t.At i n := by
  intro hn
  rw [At, h, Array.getElem?_replicate] at hn
  split at hn <;> simp at hn

/-- A table without any key has room for as many as it has nodes. -/
theorem roomy_of_replicate {size : Nat} {keys : List Key} (hnodes : t.nodes = Array.replicate size none)
    (hfree : t.freeBelow = size) (hle : keys.length ≤ size) : t.Roomy keys := by
  have hnone := not_at_of_replicate hnodes
  have hsize : t.nodes.size = size := by rw [hnodes, Array.size_replicate]
  refine ⟨.of_forall_not_at hnone (Nat.le_of_eq (hfree.trans hsize.symm)), fun i hi _ => ?_,
    fun i n hn => (hnone i n hn).elim, hsize ▸ hle⟩
  rwa [hsize, ← hfree] at hi

/-- Another layout has the same fields, if there are nodes for all keys without a slot. -/
theorem Linked.resize (h : t.Linked) {slots nodes : Nat} {keys : List Key}
    (hkeys : ∀ e ∈ t.displaced slots, fits slots e.1 = false → e.1 ∈ keys)
    (hlength : keys.length ≤ nodes) :
    (t.resize slots nodes).Roomy keys ∧ (t.resize slots nodes).slots.size = slots ∧
      ∀ l, l.IsField → (t.resize slots nodes).get l = t.get l := by
  unfold Table.resize
  dsimp only
  rw [placeItems_eq, placeNodes_eq, ← List.foldl_append]
  generalize hsize : (if nodes = 0 then 0 else Nat.pow 2 (ceilLog2 nodes)) = size
  generalize hbare : (⟨_, slots, Array.replicate size none, size, t.metatable⟩ : Table) = bare
  have hslots : bare.slots.size = slots := by
    rw [← hbare]
    show (t.slots.extract 0 slots ++
      Array.replicate (slots - (t.slots.extract 0 slots).size) Value.nil).size = slots
    rw [Array.size_append, Array.size_replicate, Array.size_extract]
    omega
  have hnodes : bare.nodes = Array.replicate size none := by rw [← hbare]
  have hle : keys.length ≤ size := by
    rw [← hsize]
    split
    · omega
    · exact Nat.le_trans hlength (le_two_pow_ceilLog2 nodes)
  have hroomy : bare.Roomy keys := roomy_of_replicate hnodes (by rw [← hbare]) hle
  obtain ⟨hlaid, hsame, hentry⟩ := hroomy.foldl
    (fun e he hslot => hkeys e he (hslots ▸ slot?_eq_none_iff.mp hslot))
    (fun _ => present_of_mem_displaced)
    (fun e he e' he' hfield hkey => by
      rw [← h.get_of_entry (entry_of_mem_displaced he hfield), hkey,
        h.get_of_entry (entry_of_mem_displaced he' (hkey ▸ hfield))])
  refine ⟨hlaid, hsame.trans hslots, fun l hl => ?_⟩
  refine h.get_congr hlaid.linked (slot?_eq_none_of_isField hl t)
    (slot?_eq_none_of_isField hl _) fun w => (hentry l hl w).trans ⟨?_, fun hw => .inl ?_⟩
  · rintro (hmem | ⟨-, -, i, n, hn, -⟩)
    · exact entry_of_mem_displaced hmem hl
    · exact absurd hn (not_at_of_replicate hnodes i n)
  · exact List.mem_append_right _ (mem_nodeEntries.mpr hw)

/-! ## Room -/

theorem sum_take_modify (counts : List Nat) (i j : Nat) :
    ((counts.modify i (· + 1)).take j).sum ≤ (counts.take j).sum + if i < j then 1 else 0 := by
  induction counts generalizing i j with
  | nil => simp
  | cons count counts ih =>
    cases j with
    | zero => simp
    | succ j =>
      cases i with
      | zero => simp; omega
      | succ i =>
        have := ih i j
        simp
        omega

/-- No more keys are counted up to a power of two than there are. -/
theorem sum_take_foldl_countKey (keys : List Key) (counts : Array Nat) (j : Nat) :
    ((keys.foldl countKey counts).toList.take (j + 1)).sum ≤
      (counts.toList.take (j + 1)).sum + keys.countP (fits (2 ^ j)) := by
  induction keys generalizing counts with
  | nil => simp
  | cons k keys ih =>
    have hone : ((countKey counts k).toList.take (j + 1)).sum ≤
        (counts.toList.take (j + 1)).sum + if fits (2 ^ j) k then 1 else 0 := by
      unfold countKey fits
      cases k.slotNumber? with
      | none => simp
      | some n =>
        have hmodify := sum_take_modify counts.toList (ceilLog2 n) (j + 1)
        have hfits : ceilLog2 n < j + 1 → n ≤ 2 ^ j := fun hlt =>
          Nat.le_trans (le_two_pow_ceilLog2 n) (Nat.pow_le_pow_right (by omega) (by omega))
        simp only [Array.toList_modify, Option.any_some, decide_eq_true_eq]
        refine Nat.le_trans hmodify ?_
        split
        · next hlt => exact Nat.le_of_eq (by rw [if_pos (hfits hlt)])
        · omega
    have := ih (countKey counts k)
    rw [List.foldl_cons, List.countP_cons]
    omega

/-- The size that is found best is a power of two, and the keys up to it are those counted. -/
theorem bestSize_eq (total candidate : Nat) (counts : List Nat) (below : Nat) (best : Nat × Nat) :
    bestSize total candidate counts below best = best ∨
      ∃ i, bestSize total candidate counts below best =
        (2 ^ i * candidate, below + (counts.take (i + 1)).sum) := by
  induction counts generalizing candidate below best with
  | nil => exact .inl rfl
  | cons count counts ih =>
    rw [bestSize]
    split
    · rcases ih (2 * candidate) (below + count)
        (if candidate / 2 < below + count then (candidate, below + count) else best) with heq | ⟨i, heq⟩
      · rw [heq]
        split
        · exact .inr ⟨0, by simp⟩
        · exact .inl rfl
      · refine .inr ⟨i + 1, heq.trans ?_⟩
        simp [Nat.pow_succ, Nat.mul_assoc, Nat.add_assoc]
    · exact .inl rfl

theorem mem_nodeKeys {e : Key × Value} (h : e ∈ nodeEntries t.nodes.toList) : e.1 ∈ t.nodeKeys := by
  obtain ⟨node, hmem, hnode⟩ := List.mem_filterMap.mp h
  obtain ⟨n, rfl, hn⟩ := Option.bind_eq_some_iff.mp hnode
  refine List.mem_filterMap.mpr ⟨some n, hmem, ?_⟩
  split at hn
  · next hv =>
    cases hn
    simp [hv]
  · cases hn

theorem mem_keys_of_displaced {slots : Nat} {e : Key × Value} (h : e ∈ t.displaced slots) :
    e.1 ∈ t.keys := by
  rcases List.mem_append.mp h with h | h
  · obtain ⟨hv, i, hkey, hi⟩ := mem_itemEntries h
    refine List.mem_append_left _ (List.mem_filterMap.mpr ⟨(e.2, slots + i + 1), ?_, ?_⟩)
    · rw [List.mk_mem_zipIdx_iff_le_and_getElem?_sub]
      rw [Array.getElem?_toList, Array.getElem?_extract] at hi
      split at hi
      · exact ⟨by omega, by simpa using hi⟩
      · cases hi
    · simp only [hv, if_true, hkey]
      rw [Nat.add_right_comm]
  · exact List.mem_append_right _ (mem_nodeKeys h)

/-- A table that is laid out for one more key has room for it. -/
theorem Linked.rehash (h : t.Linked) (k : Key) :
    ∃ keys : List Key, (t.rehash k).Roomy keys ∧ ((t.rehash k).slot? k = none → k ∈ keys) ∧
      ∀ l, l.IsField → (t.rehash k).get l = t.get l := by
  unfold Table.rehash
  dsimp only
  generalize hcounts : (k :: t.keys).foldl countKey (Array.replicate 33 0) = counts
  have hbest := bestSize_eq (counts.foldl (· + ·) 0) 1 counts.toList 0 (0, 0)
  generalize bestSize (counts.foldl (· + ·) 0) 1 counts.toList 0 (0, 0) = best at hbest ⊢
  obtain ⟨size, taken⟩ := best
  have htaken : taken ≤ (k :: t.keys).countP (fits size) := by
    rcases hbest with heq | ⟨i, heq⟩
    · cases heq
      exact Nat.zero_le _
    · cases heq
      have hsum := sum_take_foldl_countKey (k :: t.keys) (Array.replicate 33 0) i
      rw [hcounts, Array.toList_replicate, List.take_replicate, List.sum_replicate_nat] at hsum
      simpa using hsum
  let keys := (k :: t.keys).filter fun l => !fits size l
  have hlength : keys.length ≤ (k :: t.keys).length - taken := by
    have hsplit := List.length_eq_countP_add_countP (l := k :: t.keys) (fits size)
    have hcount : keys.length = (k :: t.keys).countP fun l => !fits size l :=
      List.countP_eq_length_filter.symm
    simp only [decide_not, Bool.decide_eq_true] at hsplit
    omega
  have hkeys : ∀ e ∈ t.displaced size, fits size e.1 = false → e.1 ∈ keys := by
    intro e he hfits
    exact List.mem_filter.mpr ⟨List.mem_cons_of_mem k (mem_keys_of_displaced he), by simp [hfits]⟩
  obtain ⟨hroomy, hsize, hget⟩ := h.resize hkeys hlength
  refine ⟨keys, hroomy, fun hslot => ?_, hget⟩
  rw [slot?_eq_none_iff, hsize] at hslot
  exact List.mem_filter.mpr ⟨List.mem_cons_self, by simp [hslot]⟩

/-! ## Operations on tables -/

/-- A table with the same fields, whose chains lead to every key. -/
structure SameFields (t t' : Table) : Prop where
  linked : t'.Linked
  get_eq : ∀ k, k.IsField → t'.get k = t.get k

theorem Linked.sameFields (h : t.Linked) : t.SameFields t := ⟨h, fun _ _ => rfl⟩

theorem SameFields.trans {t' t'' : Table} (h : t.SameFields t') (h' : t'.SameFields t'') :
    t.SameFields t'' :=
  ⟨h'.linked, fun k hk => (h'.get_eq k hk).trans (h.get_eq k hk)⟩

/-- Slots and metatables are no fields. -/
theorem Linked.sameFields_withSlots (h : t.Linked) {t' : Table}
    (hslots : t'.slots.size = t.slots.size) (hnodes : t'.nodes = t.nodes)
    (hfree : t'.freeBelow = t.freeBelow) : t.SameFields t' :=
  ⟨h.withSlots hslots hnodes hfree, fun _ hk => h.get_withSlots hslots hnodes hfree hk⟩

theorem Linked.touch (h : t.Linked) (k : Key) : t.SameFields (t.touch k) := by
  unfold Table.touch
  split
  · split
    · exact h.sameFields_withSlots rfl rfl rfl
    · exact h.sameFields
  · exact h.sameFields

theorem Linked.length (h : t.Linked) : t.SameFields t.length.2 := by
  have hlimit : ∀ limit, t.SameFields { t with limit } := fun _ =>
    h.sameFields_withSlots rfl rfl rfl
  unfold Table.length
  dsimp only
  repeat' split
  all_goals exact hlimit _

/-- A field has the value that it was given, and the others keep theirs. -/
theorem Linked.set (h : t.Linked) (k : Key) (v : Value) : t.Assigns k v (t.set k v) := by
  have htouched := h.touch k
  unfold Table.set
  dsimp only
  generalize t.touch k = touched at htouched
  suffices hafter : touched.Assigns k v _ from
    ⟨hafter.linked, hafter.get_self, fun l hl hne =>
      (hafter.get_of_ne l hl hne).trans (htouched.get_eq l hl)⟩
  have hlinked := htouched.linked
  split
  · next i hi =>
    have hsize : (replaced touched.slots i v).size = touched.slots.size := by simp [replaced]
    refine ⟨hlinked.withSlots hsize rfl rfl, fun hk => ?_,
      fun l hl _ => hlinked.get_withSlots hsize rfl rfl hl⟩
    rw [slot?_eq_none_of_isField hk] at hi
    cases hi
  · next hslot =>
    split
    · next i hi =>
      obtain ⟨n, hn, rfl⟩ := at_of_node? hi
      exact (hlinked.putNode hn v).assigns hlinked
    · next hnew =>
      by_cases hv : v.present = true
      · simp only [hv, Bool.not_true, Bool.false_eq_true, if_false]
        split
        · next hroom => exact (hlinked.scatter hslot hnew hroom).assigns hlinked
        · obtain ⟨keys, hroomy, hmem, hget⟩ := hlinked.rehash k
          obtain ⟨hplaced, -, hentry⟩ := hroomy.place hmem hv
          refine ⟨hplaced.linked, fun hk => ?_, fun l hl hne => ?_⟩
          · exact hplaced.linked.get_of_entry ((hentry k hk v).mpr (.inl ⟨rfl, rfl⟩))
          · rw [← hget l hl]
            refine hroomy.linked.get_congr hplaced.linked (slot?_eq_none_of_isField hl _)
              (slot?_eq_none_of_isField hl _) fun w => (hentry l hl w).trans ?_
            simp [hne]
      · simp only [hv, Bool.not_false, if_true]
        refine ⟨hlinked, fun _ => ?_, fun _ _ _ => rfl⟩
        rw [get, hslot, hnew, eq_nil_of_present hv]

theorem size_fill (slots : Array Value) (i : Nat) (vs : List Value) :
    (fill slots i vs).size = slots.size := by
  induction vs generalizing slots i with
  | nil => rfl
  | cons v vs ih => rw [fill, ih, Array.size_setIfInBounds]

/-- Items are no fields. -/
theorem Linked.setItems (h : t.Linked) (offset : Nat) (vs : List Value) :
    t.SameFields (t.setItems offset vs) := by
  have hroom : t.SameFields (if t.slots.size < offset + vs.length
      then t.resize (offset + vs.length) t.nodes.size else t) := by
    split
    · next hlt =>
      -- no slot is given up, so that only nodes are put anew
      have hkeys : ∀ e ∈ t.displaced (offset + vs.length),
          fits (offset + vs.length) e.1 = false → e.1 ∈ t.nodeKeys := by
        intro e he _
        rcases List.mem_append.mp he with he | he
        · obtain ⟨-, i, -, hi⟩ := mem_itemEntries he
          rw [Array.getElem?_toList, Array.getElem?_extract, if_neg (by omega)] at hi
          cases hi
        · exact mem_nodeKeys he
      have hlength : t.nodeKeys.length ≤ t.nodes.size := by
        rw [← Array.length_toList]
        exact List.length_filterMap_le _ _
      obtain ⟨hroomy, -, hget⟩ := h.resize hkeys hlength
      exact ⟨hroomy.linked, hget⟩
    · exact h.sameFields
  refine hroom.trans ?_
  unfold Table.setItems
  exact hroom.linked.sameFields_withSlots (size_fill _ _ _) rfl rfl

theorem linked_empty : Table.empty.Linked :=
  .of_forall_not_at (fun i n hn => by simp [At, Table.empty] at hn) (Nat.le_refl _)

theorem linked_make (items entries : Nat) : (Table.make items entries).Linked := by
  have hnone : ∀ e ∈ Table.empty.displaced items, fits items e.1 = false → e.1 ∈ [] :=
    fun e he _ => by simp [displaced, itemEntries, nodeEntries, Table.empty] at he
  exact (linked_empty.resize hnone (Nat.zero_le entries)).1.linked

theorem linked_ofEntries (entries : List (Key × Value)) : (Table.ofEntries entries).Linked := by
  unfold Table.ofEntries
  have hstart := linked_empty
  generalize Table.empty = start at hstart
  induction entries generalizing start with
  | nil => exact hstart
  | cons e entries ih => exact ih _ (hstart.set e.1 e.2).linked

theorem linked_ofFields (fields : List (String × Value)) : (Table.ofFields fields).Linked :=
  linked_ofEntries _

theorem get_ofEntries (entries : List (Key × Value)) (hk : k.IsField)
    (hnodup : (entries.map (·.1)).Nodup) (h : (k, v) ∈ entries) : (ofEntries entries).get k = v := by
  -- the entry that was put in last is the only one that can be under the key
  induction entries using List.reverseRecOn with
  | nil => cases h
  | append_singleton entries e ih =>
    have hset : ofEntries (entries ++ [e]) = (ofEntries entries).set e.1 e.2 := by
      simp [ofEntries, List.foldl_append]
    have hlast := (linked_ofEntries entries).set e.1 e.2
    rw [List.map_append, List.nodup_append] at hnodup
    rw [hset]
    rcases List.mem_append.mp h with h | h
    · have hne : k ≠ e.1 := hnodup.2.2 k (List.mem_map_of_mem h) e.1 (by simp)
      rw [hlast.get_of_ne k hk hne]
      exact ih hnodup.1 h
    · obtain rfl := List.mem_singleton.mp h
      exact hlast.get_self hk

/-- A field has the value that it is made with. -/
theorem get_ofFields (fields : List (String × Value)) {name : String}
    (hnodup : (fields.map fun f => bytes f.1).Nodup) (h : (name, v) ∈ fields) :
    (ofFields fields).get (.str (bytes name)) = v := by
  refine get_ofEntries _ (Key.isField_str _) ?_ (List.mem_map.mpr ⟨_, h, rfl⟩)
  have hkeys := hnodup.map fun _ _ h => Key.str.inj h
  simpa [List.map_map, Function.comp_def] using hkeys

end Table

end BuildComposition.Script
