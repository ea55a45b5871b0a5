import BuildComposition.Proofs.Script.Reads
import Mathlib.Data.List.Perm.Subperm

/-!
# Chains of nodes

In the scatter table of a table every key is behind its main node, on a chain of nodes.  A key that
stands in the main node of another one never has a key of that other one's chain behind it alone: it
gives way when the other one comes.  So every key is found from its main node, and a new key is put in
without losing another one.

## Main definitions

* `Table.At`: a node at a place
* `Table.Reaches`, `Table.Path`: chains, and the places on them
* `Table.Linked`: the chains lead to every key, and to every key once
* `Table.Entry`: a key with a value in the scatter table
* `Table.Scatters`: a scatter table in which one key has got a value
* `Table.Adds`: a table in which one more node stands at a place

## Main results

* `Table.Linked.node?_eq`: every key is found
* `Table.Adds.scatters`: a node is put in without losing another one
* `Table.Linked.scatter`: one more key
-/

namespace BuildComposition.Script

/-- A main node is one of the nodes. -/
theorem Key.mainNode_lt {size : Nat} (h : 0 < size) (k : Key) : k.mainNode size < size := by
  have hodd : ∀ n : Nat, n % ((size - 1) ||| 1) < size := by
    intro n
    have hhalf : ((size - 1) ||| 1) / 2 = (size - 1) / 2 := by simp [Nat.or_div_two]
    have hmod : ((size - 1) ||| 1) % 2 = 1 := by simp
    have hlt : n % ((size - 1) ||| 1) < (size - 1) ||| 1 := Nat.mod_lt _ (by omega)
    omega
  cases k <;> first | exact Nat.mod_lt _ h | exact hodd _ | exact h

namespace Table

/-- A node stands at a place. -/
def At (t : Table) (i : Nat) (n : Node) : Prop := t.nodes[i]? = some (some n)

/-- A chain leads from one place to another one. -/
inductive Reaches (t : Table) : Nat → Nat → Prop
  | refl (i : Nat) : Reaches t i i
  | step {i j k : Nat} {n : Node} (hn : t.At i n) (hnext : n.next = some j) (h : Reaches t j k) :
      Reaches t i k

/-- A chain from one place to another one with its places, the last one included. -/
inductive Path (t : Table) : Nat → Nat → List Nat → Prop
  | last (i : Nat) : Path t i i [i]
  | cons {i j k : Nat} {n : Node} {p : List Nat} (hn : t.At i n) (hnext : n.next = some j)
      (h : Path t j k p) : Path t i k (i :: p)

/-- The chains of a table lead to every key, and to every key once. -/
structure Linked (t : Table) : Prop where
  next_at : ∀ i j n, t.At i n → n.next = some j → ∃ m, t.At j m
  next_inj : ∀ i j l n m, t.At i n → t.At j m → n.next = some l → m.next = some l → i = j
  key_inj : ∀ i j n m, t.At i n → t.At j m → n.key = m.key → i = j
  reached : ∀ i n, t.At i n → t.Reaches (n.key.mainNode t.nodes.size) i
  /-- In the main node of a key that is there stands this or another key with the same main node. -/
  main_at : ∀ i n, t.At i n → ∃ m, t.At (n.key.mainNode t.nodes.size) m ∧
    m.key.mainNode t.nodes.size = n.key.mainNode t.nodes.size
  slot?_eq : ∀ i n, t.At i n → t.slot? n.key = none
  freeBelow_le : t.freeBelow ≤ t.nodes.size

variable {t : Table} {i j : Nat} {n m : Node} {k : Key} {v : Value}

/-! ## Places -/

theorem At.eq (h : t.At i n) (h' : t.At i m) : n = m := by
  rw [At] at h h'
  rw [h] at h'
  exact Option.some.inj (Option.some.inj h')

theorem At.lt (h : t.At i n) : i < t.nodes.size := (Array.getElem?_eq_some_iff.mp h).1

theorem At.getD (h : t.At i n) : t.nodes.getD i none = some n := by
  rw [Array.getD_eq_getD_getElem?, h]
  rfl

theorem at_of_getD (h : t.nodes.getD i none = some n) : t.At i n := by
  rw [Array.getD_eq_getD_getElem?] at h
  cases hi : t.nodes[i]? with
  | none =>
    rw [hi] at h
    cases h
  | some node =>
    rw [hi, Option.getD_some] at h
    rw [At, hi, h]

theorem At.pos (h : t.At i n) : 0 < t.nodes.size := Nat.lt_of_le_of_lt (Nat.zero_le i) h.lt

theorem getD_eq_none (h : ∀ n, ¬t.At i n) : t.nodes.getD i none = none := by
  cases hi : t.nodes.getD i none with
  | none => rfl
  | some n => exact absurd (at_of_getD hi) (h n)

theorem at_replaced : { t with nodes := replaced t.nodes i (some n) }.At j m ↔
    i = j ∧ i < t.nodes.size ∧ m = n ∨ i ≠ j ∧ t.At j m := by
  unfold At replaced
  rw [Array.getElem?_setIfInBounds]
  by_cases hij : i = j
  · subst hij
    by_cases hi : i < t.nodes.size <;> simp [hi, eq_comm]
  · simp [hij]

theorem at_emptied : { t with nodes := replaced t.nodes i none }.At j m ↔ i ≠ j ∧ t.At j m := by
  unfold At replaced
  rw [Array.getElem?_setIfInBounds]
  by_cases hij : i = j
  · subst hij
    by_cases hi : i < t.nodes.size <;> simp [hi]
  · simp [hij]

theorem at_modifyNode {f : Node → Node} : (t.modifyNode i f).At j m ↔
    ∃ n, t.At j n ∧ m = if i = j then f n else n := by
  unfold modifyNode At altered
  rw [Array.getElem?_modify]
  split
  · cases hj : t.nodes[j]? with
    | none => simp
    | some node => cases node <;> simp [eq_comm]
  · cases hj : t.nodes[j]? with
    | none => simp
    | some node => cases node <;> simp [eq_comm]

/-! ## Chains -/

theorem Reaches.trans {i j k : Nat} (h : t.Reaches i j) (h' : t.Reaches j k) : t.Reaches i k := by
  induction h with
  | refl => exact h'
  | step hn hnext _ ih => exact .step hn hnext (ih h')

theorem Path.mem {p : List Nat} (h : t.Path i j p) : j ∈ p := by
  induction h with
  | last => exact List.mem_singleton_self _
  | cons _ _ _ ih => exact List.mem_cons_of_mem _ ih

/-- A chain can be followed from any of its places on. -/
theorem Path.from {p : List Nat} {l : Nat} (h : t.Path i j p) (hl : l ∈ p) :
    ∃ q, t.Path l j q ∧ q <:+ p := by
  induction h with
  | last i =>
    rw [List.mem_singleton.mp hl]
    exact ⟨_, .last i, List.suffix_refl _⟩
  | @cons i _ _ _ p hn hnext h ih =>
    rcases List.mem_cons.mp hl with rfl | hl
    · exact ⟨_, .cons hn hnext h, List.suffix_refl _⟩
    · obtain ⟨q, hq, hsuffix⟩ := ih hl
      exact ⟨q, hq, hsuffix.trans (List.suffix_cons i p)⟩

/-- A chain leads to a place without coming through another one twice. -/
theorem Reaches.exists_path (h : t.Reaches i j) : ∃ p, t.Path i j p ∧ p.Nodup := by
  induction h with
  | refl i => exact ⟨_, .last i, by simp⟩
  | @step i _ _ _ hn hnext _ ih =>
    obtain ⟨p, hp, hnodup⟩ := ih
    by_cases hi : i ∈ p
    · obtain ⟨q, hq, hsuffix⟩ := hp.from hi
      exact ⟨q, hq, hsuffix.sublist.nodup hnodup⟩
    · exact ⟨i :: p, .cons hn hnext hp, List.nodup_cons.mpr ⟨hi, hnodup⟩⟩

theorem Path.lt {p : List Nat} (h : t.Path i j p) (hj : j < t.nodes.size) :
    ∀ l ∈ p, l < t.nodes.size := by
  induction h with
  | last i =>
    intro l hl
    rw [List.mem_singleton.mp hl]
    exact hj
  | cons hn _ _ ih =>
    intro l hl
    rcases List.mem_cons.mp hl with rfl | hl
    · exact hn.lt
    · exact ih hj l hl

/-- There are as many places as nodes. -/
theorem Path.length_le {p : List Nat} (h : t.Path i j p) (hnodup : p.Nodup)
    (hj : j < t.nodes.size) : p.length ≤ t.nodes.size := by
  have hsub : p ⊆ List.range t.nodes.size := fun l hl => List.mem_range.mpr (h.lt hj l hl)
  simpa using (hnodup.subperm hsub).length_le

theorem findFrom_of_path {p : List Nat} (h : t.Path i j p) (hnodup : p.Nodup) (hj : t.At j n)
    (hunique : ∀ l m, t.At l m → m.key = n.key → l = j) {fuel : Nat} (hfuel : p.length ≤ fuel) :
    t.findFrom n.key fuel i = some j := by
  induction h generalizing fuel with
  | last =>
    obtain ⟨fuel, rfl⟩ := Nat.exists_eq_add_one_of_ne_zero (n := fuel) (by simp at hfuel; omega)
    rw [At] at hj
    simp [findFrom, hj]
  | @cons i l _ m p hm hnext hp ih =>
    obtain ⟨fuel, rfl⟩ := Nat.exists_eq_add_one_of_ne_zero (n := fuel) (by simp at hfuel; omega)
    obtain ⟨hi, hnodup⟩ := List.nodup_cons.mp hnodup
    have hkey : m.key ≠ n.key := by
      intro heq
      rw [hunique i m hm heq] at hi
      exact hi hp.mem
    rw [At] at hm
    simp only [findFrom, hm, hkey, if_false, hnext]
    exact ih hnodup hj hunique (by simpa using hfuel)

namespace Linked

/-- Every key is found. -/
theorem node?_eq (h : t.Linked) (hn : t.At i n) : t.node? n.key = some i := by
  obtain ⟨p, hp, hnodup⟩ := (h.reached i n hn).exists_path
  have hempty : t.nodes.isEmpty = false := by
    have := hn.pos
    simp only [Array.isEmpty_eq_false_iff]
    rintro hnil
    rw [hnil] at this
    exact absurd this (by simp)
  rw [node?, hempty]
  exact findFrom_of_path hp hnodup hn (fun l m hm hkey => h.key_inj l i m n hm hn hkey)
    (hp.length_le hnodup hn.lt)

end Linked

theorem at_of_node? (h : t.node? k = some i) : ∃ n, t.At i n ∧ n.key = k := by
  unfold node? at h
  split at h
  · cases h
  · exact findFrom_eq_some h

theorem Reaches.map {t' : Table} {f : Nat → Nat}
    (hstep : ∀ i j n, t.At i n → n.next = some j → t'.Reaches (f i) (f j)) (h : t.Reaches i j) :
    t'.Reaches (f i) (f j) := by
  induction h with
  | refl i => exact .refl _
  | step hn hnext _ ih => exact (hstep _ _ _ hn hnext).trans ih

/-- The node before another one on a chain that leads to it. -/
theorem nodeBefore_of_path {p : List Nat} (h : t.Path i j p) (hnodup : p.Nodup) (hne : i ≠ j)
    {fuel : Nat} (hfuel : p.length ≤ fuel) :
    ∃ n, t.At (t.nodeBefore j fuel i) n ∧ n.next = some j ∧ t.nodeBefore j fuel i ≠ j := by
  induction h generalizing fuel with
  | last => exact absurd rfl hne
  | @cons i l j n p hn hnext hp ih =>
    obtain ⟨fuel, rfl⟩ := Nat.exists_eq_add_one_of_ne_zero (n := fuel) (by simp at hfuel; omega)
    have hat : t.nodes[i]? = some (some n) := hn
    by_cases hl : l = j
    · subst hl
      have hbefore : t.nodeBefore l (fuel + 1) i = i := by simp [nodeBefore, hat, hnext]
      rw [hbefore]
      exact ⟨n, hn, hnext, hne⟩
    · have hbefore : t.nodeBefore j (fuel + 1) i = t.nodeBefore j fuel l := by
        simp [nodeBefore, hat, hnext, hl]
      rw [hbefore]
      exact ih (List.nodup_cons.mp hnodup).2 hl (by simpa using hfuel)

theorem nodeBefore_freeBelow (t : Table) (freeBelow i fuel j : Nat) :
    { t with freeBelow }.nodeBefore i fuel j = t.nodeBefore i fuel j := by
  induction fuel generalizing j with
  | zero => rfl
  | succ fuel ih => simp only [nodeBefore, ih]

/-! ## Entries -/

/-- A key has a value in the scatter table. -/
def Entry (t : Table) (k : Key) (v : Value) : Prop :=
  v.present = true ∧ ∃ i n, t.At i n ∧ n.key = k ∧ n.value = v

theorem eq_nil_of_present (h : ¬v.present = true) : v = .nil := by
  cases v <;> first | rfl | exact absurd rfl h

theorem Linked.get_of_at (h : t.Linked) (hn : t.At i n) : t.get n.key = n.value := by
  have hat : t.nodes[i]? = some (some n) := hn
  simp [get, h.slot?_eq i n hn, h.node?_eq hn, nodeValue, hat]

theorem Linked.get_of_entry (h : t.Linked) (he : t.Entry k v) : t.get k = v := by
  obtain ⟨-, i, n, hn, rfl, rfl⟩ := he
  exact h.get_of_at hn

theorem get_of_forall_not_entry (hslot : t.slot? k = none) (h : ∀ v, ¬t.Entry k v) :
    t.get k = .nil := by
  rw [get, hslot]
  cases hnode : t.node? k with
  | none => rfl
  | some i =>
    obtain ⟨n, hn, rfl⟩ := at_of_node? hnode
    have hat : t.nodes[i]? = some (some n) := hn
    show t.nodeValue i = .nil
    rw [nodeValue, hat]
    exact eq_nil_of_present fun hv => h n.value ⟨hv, i, n, hn, rfl, rfl⟩

/-- What is under a key that has no slot depends on its entry alone. -/
theorem Linked.get_congr {t' : Table} (h : t.Linked) (h' : t'.Linked) (hslot : t.slot? k = none)
    (hslot' : t'.slot? k = none) (hentry : ∀ v, t'.Entry k v ↔ t.Entry k v) : t'.get k = t.get k := by
  by_cases hk : ∃ v, t.Entry k v
  · obtain ⟨v, hv⟩ := hk
    rw [h.get_of_entry hv, h'.get_of_entry ((hentry v).mpr hv)]
  · have hnone : ∀ v, ¬t.Entry k v := fun v hv => hk ⟨v, hv⟩
    rw [get_of_forall_not_entry hslot hnone,
      get_of_forall_not_entry hslot' fun v hv => hnone v ((hentry v).mp hv)]

/-- Chains stay chains where nodes move, as long as the main nodes of the keys stay. -/
theorem Linked.of_moved {t' : Table} (h : t.Linked) {f : Nat → Nat}
    (hsize : t'.nodes.size = t.nodes.size) (hslot : ∀ k, t'.slot? k = t.slot? k)
    (hback : ∀ j m, t'.At j m → ∃ i n, t.At i n ∧ f i = j ∧ n.key = m.key ∧ m.next = n.next.map f)
    (hkeep : ∀ i n, t.At i n → ∃ m, t'.At (f i) m ∧ n.key = m.key ∧ m.next = n.next.map f)
    (hinj : ∀ i j n m, t.At i n → t.At j m → f i = f j → i = j)
    (hmain : ∀ i n, t.At i n → f (n.key.mainNode t.nodes.size) = n.key.mainNode t.nodes.size)
    (hfree : t'.freeBelow ≤ t.nodes.size) : t'.Linked where
  next_at j l m hm hnext := by
    obtain ⟨i, n, hn, -, -, hmap⟩ := hback j m hm
    rw [hmap] at hnext
    obtain ⟨l, hl, rfl⟩ := Option.map_eq_some_iff.mp hnext
    obtain ⟨o, ho⟩ := h.next_at i l n hn hl
    obtain ⟨o', ho', -⟩ := hkeep l o ho
    exact ⟨o', ho'⟩
  next_inj j j' l m m' hm hm' hnext hnext' := by
    obtain ⟨i, n, hn, rfl, -, hmap⟩ := hback j m hm
    obtain ⟨i', n', hn', rfl, -, hmap'⟩ := hback j' m' hm'
    rw [hmap] at hnext
    rw [hmap'] at hnext'
    obtain ⟨l, hl, rfl⟩ := Option.map_eq_some_iff.mp hnext
    obtain ⟨l', hl', heq⟩ := Option.map_eq_some_iff.mp hnext'
    obtain ⟨o, ho⟩ := h.next_at i l n hn hl
    obtain ⟨o', ho'⟩ := h.next_at i' l' n' hn' hl'
    obtain rfl := hinj l' l o' o ho' ho heq
    rw [h.next_inj i i' l' n n' hn hn' hl hl']
  key_inj j j' m m' hm hm' hkey := by
    obtain ⟨i, n, hn, rfl, hkey₀, -⟩ := hback j m hm
    obtain ⟨i', n', hn', rfl, hkey₁, -⟩ := hback j' m' hm'
    rw [h.key_inj i i' n n' hn hn' (hkey₀.trans (hkey.trans hkey₁.symm))]
  reached j m hm := by
    obtain ⟨i, n, hn, rfl, hkey, -⟩ := hback j m hm
    have hreaches : t'.Reaches (f (n.key.mainNode t.nodes.size)) (f i) :=
      (h.reached i n hn).map fun a b o ho hnext => by
        obtain ⟨o', ho', -, hmap⟩ := hkeep a o ho
        exact .step ho' (by rw [hmap, hnext, Option.map_some]) (.refl _)
    rwa [hmain i n hn, hkey, ← hsize] at hreaches
  main_at j m hm := by
    obtain ⟨i, n, hn, -, hkey, -⟩ := hback j m hm
    obtain ⟨o, ho, hsame⟩ := h.main_at i n hn
    obtain ⟨o', ho', hkey', -⟩ := hkeep _ o ho
    rw [hmain i n hn] at ho'
    rw [hsize, ← hkey]
    exact ⟨o', ho', hkey' ▸ hsame⟩
  slot?_eq j m hm := by
    obtain ⟨i, n, hn, -, hkey, -⟩ := hback j m hm
    rw [hslot, ← hkey]
    exact h.slot?_eq i n hn
  freeBelow_le := hsize ▸ hfree

theorem slot?_congr {t' : Table} (h : t'.slots.size = t.slots.size) (k : Key) :
    t'.slot? k = t.slot? k := by
  rw [slot?, slot?, h]

/-- A scatter table in which a key has got a value, and nothing else has changed. -/
structure Scatters (t : Table) (k : Key) (v : Value) (t' : Table) : Prop where
  linked : t'.Linked
  slots_eq : t'.slots = t.slots
  size_eq : t'.nodes.size = t.nodes.size
  entry_iff : ∀ l w, t'.Entry l w ↔ l = k ∧ w = v ∧ v.present = true ∨ l ≠ k ∧ t.Entry l w
  key_of_at : ∀ i n, t'.At i n → n.key = k ∨ ∃ j m, t.At j m ∧ m.key = n.key

/-- A key that is there gets a value. -/
theorem Linked.putNode (h : t.Linked) (hn : t.At i n) (v : Value) :
    t.Scatters n.key v (t.modifyNode i fun node => { node with value := v }) := by
  have hsize : (t.modifyNode i fun node => { node with value := v }).nodes.size = t.nodes.size := by
    simp [modifyNode, altered]
  refine ⟨h.of_moved (f := id) hsize (fun _ => rfl) ?_ ?_ (fun _ _ _ _ _ _ h => h)
    (fun _ _ _ => rfl) h.freeBelow_le, rfl, hsize, fun l w => ⟨?_, ?_⟩, ?_⟩
  · intro j m hm
    obtain ⟨m₀, hm₀, rfl⟩ := at_modifyNode.mp hm
    refine ⟨j, m₀, hm₀, rfl, ?_⟩
    split <;> simp
  · intro j m hm
    refine ⟨_, at_modifyNode.mpr ⟨m, hm, rfl⟩, ?_⟩
    split <;> simp
  · rintro ⟨hw, j, m, hm, rfl, rfl⟩
    obtain ⟨m₀, hm₀, rfl⟩ := at_modifyNode.mp hm
    by_cases hij : i = j
    · subst hij
      rw [if_pos rfl] at hw ⊢
      obtain rfl := hn.eq hm₀
      exact .inl ⟨rfl, rfl, hw⟩
    · rw [if_neg hij] at hw ⊢
      refine .inr ⟨fun hkey => hij ?_, hw, j, m₀, hm₀, rfl, rfl⟩
      exact (h.key_inj j i m₀ n hm₀ hn hkey).symm
  · rintro (⟨rfl, rfl, hw⟩ | ⟨hne, hw, j, m, hm, rfl, rfl⟩)
    · exact ⟨hw, i, _, at_modifyNode.mpr ⟨n, hn, rfl⟩, by simp, by simp⟩
    · have hij : i ≠ j := by
        rintro rfl
        exact hne (by rw [hn.eq hm])
      exact ⟨hw, j, m, at_modifyNode.mpr ⟨m, hm, by rw [if_neg hij]⟩, rfl, rfl⟩
  · intro j m hm
    obtain ⟨m₀, hm₀, rfl⟩ := at_modifyNode.mp hm
    exact .inr ⟨j, m₀, hm₀, by split <;> rfl⟩

/-- A table in which one more node stands at a place, with every other key where it was.  Of the nodes
that were there only one without a value may have gone, from the main node of the new key. -/
structure Adds (t : Table) (i : Nat) (node : Node) (t' : Table) : Prop where
  slots_eq : t'.slots = t.slots
  size_eq : t'.nodes.size = t.nodes.size
  freeBelow_le : t'.freeBelow ≤ t.nodes.size
  self : t'.At i node
  back : ∀ j m, t'.At j m → j = i ∧ m = node ∨ ∃ n, t.At j n ∧ n.key = m.key ∧ n.value = m.value
  keep : ∀ j n, t.At j n → j = i ∧ i = node.key.mainNode t.nodes.size ∧ ¬n.value.present = true ∨
    ∃ m, t'.At j m ∧ m.key = n.key ∧ m.value = n.value
  reaches_next : ∀ j l n, t.At j n → n.next = some l → t'.Reaches j l

/-- A node with a new key is put in, if the chains stay apart and lead to it from its main node. -/
theorem Adds.scatters {t' : Table} {node : Node} (ha : t.Adds i node t') (h : t.Linked)
    (hslot : t.slot? node.key = none) (hnew : ∀ j n, t.At j n → n.key ≠ node.key)
    (hat : ∀ j l m, t'.At j m → m.next = some l → ∃ o, t'.At l o)
    (hinj : ∀ j j' l m m', t'.At j m → t'.At j' m' → m.next = some l → m'.next = some l → j = j')
    (hreaches : t'.Reaches (node.key.mainNode t.nodes.size) i)
    (hmain : ∃ m, t'.At (node.key.mainNode t.nodes.size) m ∧
      m.key.mainNode t.nodes.size = node.key.mainNode t.nodes.size) :
    t.Scatters node.key node.value t' := by
  refine ⟨⟨hat, hinj, ?_, ?_, ?_, ?_, ha.size_eq ▸ ha.freeBelow_le⟩, ha.slots_eq, ha.size_eq,
    fun l w => ⟨?_, ?_⟩, ?_⟩
  · intro j j' m m' hm hm' hkey
    rcases ha.back j m hm with ⟨rfl, rfl⟩ | ⟨n, hn, hk, -⟩ <;>
      rcases ha.back j' m' hm' with ⟨rfl, rfl⟩ | ⟨n', hn', hk', -⟩
    · rfl
    · exact absurd (hk'.trans hkey.symm) (hnew j' n' hn')
    · exact absurd (hk.trans hkey) (hnew j n hn)
    · exact h.key_inj j j' n n' hn hn' (hk.trans (hkey.trans hk'.symm))
  · intro j m hm
    rw [ha.size_eq]
    rcases ha.back j m hm with ⟨rfl, rfl⟩ | ⟨n, hn, hk, -⟩
    · exact hreaches
    · exact hk ▸ (h.reached j n hn).map (f := id) ha.reaches_next
  · intro j m hm
    rw [ha.size_eq]
    rcases ha.back j m hm with ⟨rfl, rfl⟩ | ⟨n, hn, hk, -⟩
    · exact hmain
    · obtain ⟨o, ho, hsame⟩ := h.main_at j n hn
      rw [← hk]
      rcases ha.keep _ o ho with ⟨hi, hnode, -⟩ | ⟨o', ho', hkey, -⟩
      · exact ⟨node, hi ▸ ha.self, hnode.symm.trans hi.symm⟩
      · exact ⟨o', ho', hkey ▸ hsame⟩
  · intro j m hm
    rw [slot?_congr (congrArg Array.size ha.slots_eq)]
    rcases ha.back j m hm with ⟨rfl, rfl⟩ | ⟨n, hn, hk, -⟩
    · exact hslot
    · exact hk ▸ h.slot?_eq j n hn
  · rintro ⟨hw, j, m, hm, rfl, rfl⟩
    rcases ha.back j m hm with ⟨rfl, rfl⟩ | ⟨n, hn, hk, hvalue⟩
    · exact .inl ⟨rfl, rfl, hw⟩
    · exact .inr ⟨hk ▸ hnew j n hn, hw, j, n, hn, hk, hvalue⟩
  · rintro (⟨rfl, rfl, hw⟩ | ⟨-, hw, j, n, hn, rfl, rfl⟩)
    · exact ⟨hw, i, node, ha.self, rfl, rfl⟩
    · rcases ha.keep j n hn with ⟨-, -, hgone⟩ | ⟨m, hm, hkey, hvalue⟩
      · exact absurd hw hgone
      · exact ⟨hw, j, m, hm, hkey, hvalue⟩
  · intro j m hm
    rcases ha.back j m hm with ⟨-, rfl⟩ | ⟨n, hn, hk, -⟩
    · exact .inl rfl
    · exact .inr ⟨j, n, hn, hk⟩

/-- A new key takes its main node, in which nothing stands any more. -/
theorem Linked.occupy (h : t.Linked) (hslot : t.slot? k = none) (hnew : ∀ i n, t.At i n → n.key ≠ k)
    (hpos : 0 < t.nodes.size) (hmain : t.occupant? (k.mainNode t.nodes.size) = none) :
    t.Scatters k v (t.occupy (k.mainNode t.nodes.size) k v) := by
  have hlt : k.mainNode t.nodes.size < t.nodes.size := k.mainNode_lt hpos
  have hsize : (t.occupy (k.mainNode t.nodes.size) k v).nodes.size = t.nodes.size := by
    simp [Table.occupy, replaced]
  generalize hi : k.mainNode t.nodes.size = i at hmain hlt hsize ⊢
  unfold Table.occupy at hsize ⊢
  generalize hnext : (t.nodes.getD i none).bind (·.next) = next at hsize ⊢
  generalize ht' : ({ t with nodes := replaced t.nodes i (some ⟨k, v, next⟩) } : Table) = t' at hsize ⊢
  have hat : ∀ j m, t'.At j m ↔ i = j ∧ m = ⟨k, v, next⟩ ∨ i ≠ j ∧ t.At j m := by
    intro j m
    rw [← ht', at_replaced]
    simp [hlt]
  have hself : t'.At i ⟨k, v, next⟩ := (hat _ _).mpr (.inl ⟨rfl, rfl⟩)
  have hgone : ∀ n, t.At i n → ¬n.value.present = true := by
    intro n hn hp
    simp [occupant?, hn.getD, hp] at hmain
  have hadds : t.Adds i ⟨k, v, next⟩ t' := by
    refine ⟨ht' ▸ rfl, hsize, ht' ▸ h.freeBelow_le, hself, fun j m hm => ?_, fun j n hn => ?_,
      fun j l n hn hl => ?_⟩
    · rcases (hat j m).mp hm with ⟨rfl, rfl⟩ | ⟨-, hm⟩
      · exact .inl ⟨rfl, rfl⟩
      · exact .inr ⟨m, hm, rfl, rfl⟩
    · by_cases hij : i = j
      · subst hij
        exact .inl ⟨rfl, hi.symm, hgone n hn⟩
      · exact .inr ⟨n, (hat j n).mpr (.inr ⟨hij, hn⟩), rfl, rfl⟩
    · by_cases hij : i = j
      · subst hij
        refine .step hself ?_ (.refl l)
        rw [← hnext, hn.getD]
        exact hl
      · exact .step ((hat j n).mpr (.inr ⟨hij, hn⟩)) hl (.refl l)
  -- the new node goes on in the chain like the one that stood there
  have hback : ∀ j m l, t'.At j m → m.next = some l → ∃ n, t.At j n ∧ n.next = some l := by
    intro j m l hm hl
    rcases (hat j m).mp hm with ⟨rfl, rfl⟩ | ⟨-, hm⟩
    · obtain ⟨n, hn, hnl⟩ := Option.bind_eq_some_iff.mp (hnext.trans hl)
      exact ⟨n, at_of_getD hn, hnl⟩
    · exact ⟨m, hm, hl⟩
  have hreaches : t'.Reaches (k.mainNode t.nodes.size) i := by
    rw [hi]
    exact .refl i
  refine hadds.scatters h hslot hnew ?_ ?_ hreaches ⟨_, hi ▸ hself, rfl⟩
  · intro j l m hm hl
    obtain ⟨n, hn, hnl⟩ := hback j m l hm hl
    obtain ⟨o, ho⟩ := h.next_at j l n hn hnl
    by_cases hil : i = l
    · exact ⟨_, hil ▸ hself⟩
    · exact ⟨o, (hat l o).mpr (.inr ⟨hil, ho⟩)⟩
  · intro j j' l m m' hm hm' hl hl'
    obtain ⟨n, hn, hnl⟩ := hback j m l hm hl
    obtain ⟨n', hn', hnl'⟩ := hback j' m' l hm' hl'
    exact h.next_inj j j' l n n' hn hn' hnl hnl'

/-- The table in which a key stands at a free place, behind the first node of its chain. -/
def behind (t : Table) (other : Node) (i free : Nat) (k : Key) (v : Value) : Table :=
  ({ t with nodes := replaced t.nodes free (some ⟨k, v, other.next⟩), freeBelow := free } :
    Table).modifyNode i fun node => { node with next := some free }

theorem at_behind {other : Node} {free : Nat} (hother : t.At i other) (hfree : ∀ n, ¬t.At free n)
    (hlt : free < t.nodes.size) : (t.behind other i free k v).At j m ↔
      j = free ∧ m = ⟨k, v, other.next⟩ ∨ j = i ∧ m = { other with next := some free } ∨
        j ≠ free ∧ j ≠ i ∧ t.At j m := by
  have hne : free ≠ i := fun heq => hfree other (heq ▸ hother)
  unfold behind
  rw [at_modifyNode]
  constructor
  · rintro ⟨n, hn, rfl⟩
    rcases at_replaced.mp hn with ⟨rfl, -, rfl⟩ | ⟨hj, hn⟩
    · rw [if_neg (Ne.symm hne)]
      exact .inl ⟨rfl, rfl⟩
    · by_cases hij : i = j
      · subst hij
        rw [if_pos rfl, hother.eq hn]
        exact .inr (.inl ⟨rfl, rfl⟩)
      · rw [if_neg hij]
        exact .inr (.inr ⟨Ne.symm hj, Ne.symm hij, hn⟩)
  · rintro (⟨rfl, rfl⟩ | ⟨rfl, rfl⟩ | ⟨hj, hij, hm⟩)
    · exact ⟨_, at_replaced.mpr (.inl ⟨rfl, hlt, rfl⟩), by rw [if_neg (Ne.symm hne)]⟩
    · exact ⟨other, at_replaced.mpr (.inr ⟨hne, hother⟩), by rw [if_pos rfl]⟩
    · exact ⟨m, at_replaced.mpr (.inr ⟨Ne.symm hj, hm⟩), by rw [if_neg (Ne.symm hij)]⟩

theorem adds_behind {other : Node} {free : Nat} (hother : t.At i other) (hfree : ∀ n, ¬t.At free n)
    (hlt : free < t.nodes.size) :
    t.Adds free ⟨k, v, other.next⟩ (t.behind other i free k v) := by
  have hsize : (t.behind other i free k v).nodes.size = t.nodes.size := by
    simp [behind, modifyNode, altered, replaced]
  have hself : (t.behind other i free k v).At free ⟨k, v, other.next⟩ :=
    (at_behind hother hfree hlt).mpr (.inl ⟨rfl, rfl⟩)
  have hfirst : (t.behind other i free k v).At i { other with next := some free } :=
    (at_behind hother hfree hlt).mpr (.inr (.inl ⟨rfl, rfl⟩))
  refine ⟨rfl, hsize, Nat.le_of_lt hlt, hself, fun j m hm => ?_, fun j n hn => .inr ?_,
    fun j l n hn hl => ?_⟩
  · rcases (at_behind hother hfree hlt).mp hm with hm | ⟨rfl, rfl⟩ | ⟨-, -, hm⟩
    · exact .inl hm
    · exact .inr ⟨other, hother, rfl, rfl⟩
    · exact .inr ⟨m, hm, rfl, rfl⟩
  · have hj : j ≠ free := fun heq => hfree n (heq ▸ hn)
    by_cases hij : j = i
    · subst hij
      exact ⟨_, hfirst, by rw [hother.eq hn], by rw [hother.eq hn]⟩
    · exact ⟨n, (at_behind hother hfree hlt).mpr (.inr (.inr ⟨hj, hij, hn⟩)), rfl, rfl⟩
  · have hj : j ≠ free := fun heq => hfree n (heq ▸ hn)
    by_cases hij : j = i
    · subst hij
      obtain rfl := hother.eq hn
      exact .step hfirst rfl (.step hself hl (.refl l))
    · exact .step ((at_behind hother hfree hlt).mpr (.inr (.inr ⟨hj, hij, hn⟩))) hl (.refl l)

/-- A new key goes to a free node, behind the one in its main node. -/
theorem Linked.scatterBehind (h : t.Linked) (hslot : t.slot? k = none)
    (hnew : ∀ i n, t.At i n → n.key ≠ k) {other : Node} {free : Nat}
    (hother : t.At (k.mainNode t.nodes.size) other) (hfree : ∀ n, ¬t.At free n)
    (hlt : free < t.nodes.size)
    (hhome : other.key.mainNode t.nodes.size = k.mainNode t.nodes.size) :
    t.Scatters k v (t.scatterBeside other free k v) := by
  have heq : t.scatterBeside other free k v =
      t.behind other (k.mainNode t.nodes.size) free k v := by
    unfold scatterBeside
    dsimp only
    rw [if_pos hhome]
    rfl
  rw [heq]
  have hadds := adds_behind (k := k) (v := v) hother hfree hlt
  have hat : ∀ j m, (t.behind other (k.mainNode t.nodes.size) free k v).At j m ↔ _ := fun _ _ =>
    at_behind hother hfree hlt
  generalize t.behind other (k.mainNode t.nodes.size) free k v = t' at hadds hat ⊢
  have hfirst := (hat _ _).mpr (.inr (.inl ⟨rfl, rfl⟩))
  -- what followed the first node of the chain follows the new one
  have hnext : ∀ j m l, t'.At j m → m.next = some l → j = k.mainNode t.nodes.size ∧ l = free ∨
      ∃ j₀ n, t.At j₀ n ∧ n.next = some l ∧ l ≠ free ∧
        j = if j₀ = k.mainNode t.nodes.size then free else j₀ := by
    intro j m l hm hl
    have hold : ∀ j₀ n, t.At j₀ n → n.next = some l → l ≠ free := by
      rintro j₀ n hn hnl rfl
      obtain ⟨o, ho⟩ := h.next_at j₀ l n hn hnl
      exact hfree o ho
    rcases (hat j m).mp hm with ⟨rfl, rfl⟩ | ⟨rfl, rfl⟩ | ⟨-, hij, hm⟩
    · exact .inr ⟨_, other, hother, hl, hold _ other hother hl, by rw [if_pos rfl]⟩
    · exact .inl ⟨rfl, (Option.some.inj hl).symm⟩
    · exact .inr ⟨j, m, hm, hl, hold j m hm hl, by rw [if_neg hij]⟩
  refine hadds.scatters h hslot hnew ?_ ?_ (.step hfirst rfl (.refl free)) ⟨_, hfirst, hhome⟩
  · intro j l m hm hl
    rcases hnext j m l hm hl with ⟨-, rfl⟩ | ⟨j₀, n, hn, hnl, -, -⟩
    · exact ⟨_, hadds.self⟩
    · obtain ⟨o, ho⟩ := h.next_at j₀ l n hn hnl
      rcases hadds.keep l o ho with ⟨hl, -⟩ | ⟨o', ho', -⟩
      · exact ⟨_, hl ▸ hadds.self⟩
      · exact ⟨o', ho'⟩
  · intro j j' l m m' hm hm' hl hl'
    rcases hnext j m l hm hl with ⟨rfl, rfl⟩ | ⟨j₀, n, hn, hnl, hlfree, rfl⟩ <;>
      rcases hnext j' m' l hm' hl' with ⟨rfl, hl₁⟩ | ⟨j₁, n', hn', hnl', hlfree', rfl⟩
    · rfl
    · exact absurd rfl hlfree'
    · exact absurd hl₁ hlfree
    · rw [h.next_inj j₀ j₁ l n n' hn hn' hnl hnl']

/-- The table with another node at a place, or with none. -/
def withNode (t : Table) (i : Nat) (node : Option Node) : Table :=
  { t with nodes := replaced t.nodes i node }

/-- The table in which the key at a place has moved to a free one, and the chain follows it. -/
def moved (t : Table) (other : Node) (i free before : Nat) : Table :=
  let linked := ({ t with freeBelow := free } : Table).modifyNode before
    fun node => { node with next := some free }
  (linked.withNode free (some other)).withNode i none

/-- Where a key is when the one at a place has moved to a free one. -/
def relocated (i free j : Nat) : Nat := if j = i then free else j

theorem relocated_self (i free : Nat) : relocated i free i = free := if_pos rfl

theorem relocated_of_ne (free : Nat) (h : j ≠ i) : relocated i free j = j := if_neg h

section

variable {other : Node} {free before : Nat} (h : t.Linked) (hother : t.At i other)
  (hfree : ∀ n, ¬t.At free n) (hlt : free < t.nodes.size) (hn : t.At before n) (hnext : n.next = some i)
  (hne : before ≠ i)

include hlt in
theorem at_moved : (t.moved other i free before).At j m ↔ i ≠ j ∧ (j = free ∧ m = other ∨
    j ≠ free ∧ ∃ o, t.At j o ∧ m = if before = j then { o with next := some free } else o) := by
  refine at_emptied.trans (and_congr_right fun _ => at_replaced.trans (or_congr ?_ ?_))
  · constructor
    · rintro ⟨rfl, -, rfl⟩
      exact ⟨rfl, rfl⟩
    · rintro ⟨rfl, rfl⟩
      exact ⟨rfl, by simpa [modifyNode, altered] using hlt, rfl⟩
  · exact and_congr ne_comm at_modifyNode

include h hother hfree hlt hn hnext hne

/-- Every key is where it has moved to, and its chain goes on to where the next one has moved to. -/
theorem exists_at_moved {j : Nat} {o : Node} (ho : t.At j o) :
    ∃ m, (t.moved other i free before).At (relocated i free j) m ∧ o.key = m.key ∧
      o.value = m.value ∧ m.next = o.next.map (relocated i free) := by
  -- only the node before the key that moves leads to it
  have hlast : j ≠ before → o.next = o.next.map (relocated i free) := by
    intro hj
    cases hl : o.next with
    | none => rfl
    | some l =>
      have hli : l ≠ i := by
        rintro rfl
        exact hj (h.next_inj j before l o n ho hn hl hnext)
      rw [Option.map_some, relocated_of_ne free hli]
  by_cases hji : j = i
  · subst hji
    obtain rfl := hother.eq ho
    refine ⟨other, ?_, rfl, rfl, hlast (Ne.symm hne)⟩
    rw [relocated_self]
    exact (at_moved hlt).mpr ⟨fun heq => hfree other (heq ▸ hother), .inl ⟨rfl, rfl⟩⟩
  · have hjf : j ≠ free := fun heq => hfree o (heq ▸ ho)
    rw [relocated_of_ne free hji]
    refine ⟨_, (at_moved hlt).mpr ⟨Ne.symm hji, .inr ⟨hjf, o, ho, rfl⟩⟩, ?_⟩
    split
    · next hb =>
      subst hb
      obtain rfl := hn.eq ho
      refine ⟨rfl, rfl, ?_⟩
      rw [hnext, Option.map_some, relocated_self]
    · next hb => exact ⟨rfl, rfl, hlast (Ne.symm hb)⟩

/-- Every key that is there has been there before. -/
theorem exists_at_of_moved {j : Nat} {m : Node} (hm : (t.moved other i free before).At j m) :
    ∃ l o, t.At l o ∧ relocated i free l = j ∧ o.key = m.key ∧ o.value = m.value ∧
      m.next = o.next.map (relocated i free) := by
  have hold : ∃ l o, t.At l o ∧ relocated i free l = j := by
    obtain ⟨hij, ⟨rfl, -⟩ | ⟨-, o, ho, -⟩⟩ := (at_moved hlt).mp hm
    · exact ⟨i, other, hother, relocated_self i _⟩
    · exact ⟨j, o, ho, relocated_of_ne free (Ne.symm hij)⟩
  obtain ⟨l, o, ho, hl⟩ := hold
  obtain ⟨m', hm', hsame⟩ := exists_at_moved h hother hfree hlt hn hnext hne ho
  rw [hl] at hm'
  obtain rfl := hm.eq hm'
  exact ⟨l, o, ho, hl, hsame⟩

/-- A key that moves is found at its new place. -/
theorem Linked.moved (haway : other.key.mainNode t.nodes.size ≠ i) :
    (t.moved other i free before).Linked ∧ (∀ n, ¬(t.moved other i free before).At i n) ∧
      ∀ k v, (∃ j m, (t.moved other i free before).At j m ∧ m.key = k ∧ m.value = v) ↔
        ∃ j m, t.At j m ∧ m.key = k ∧ m.value = v := by
  have hsize : (t.moved other i free before).nodes.size = t.nodes.size := by
    simp [Table.moved, withNode, modifyNode, altered, replaced]
  refine ⟨h.of_moved hsize (fun _ => rfl) (f := relocated i free) ?_ ?_ ?_ ?_ (Nat.le_of_lt hlt),
    fun m hm => ((at_moved hlt).mp hm).1 rfl, fun k v => ⟨?_, ?_⟩⟩
  · intro j m hm
    obtain ⟨l, o, ho, hl, hkey, -, hmap⟩ := exists_at_of_moved h hother hfree hlt hn hnext hne hm
    exact ⟨l, o, ho, hl, hkey, hmap⟩
  · intro j o ho
    obtain ⟨m, hm, hkey, -, hmap⟩ := exists_at_moved h hother hfree hlt hn hnext hne ho
    exact ⟨m, hm, hkey, hmap⟩
  · intro j l o o' ho ho' heq
    have hjf : ∀ j o, t.At j o → j ≠ free := fun j o ho heq => hfree o (heq ▸ ho)
    unfold relocated at heq
    split at heq <;> split at heq
    · next hj hl => exact hj.trans hl.symm
    · exact absurd heq.symm (hjf l o' ho')
    · exact absurd heq (hjf j o ho)
    · exact heq
  · intro j o ho
    refine relocated_of_ne free fun heq => ?_
    obtain ⟨m, hm, hsame⟩ := h.main_at j o ho
    rw [heq] at hm hsame
    rw [hother.eq hm] at haway
    exact haway hsame
  · rintro ⟨j, m, hm, rfl, rfl⟩
    obtain ⟨l, o, ho, -, hkey, hvalue, -⟩ := exists_at_of_moved h hother hfree hlt hn hnext hne hm
    exact ⟨l, o, ho, hkey, hvalue⟩
  · rintro ⟨j, o, ho, rfl, rfl⟩
    obtain ⟨m, hm, hkey, hvalue, -⟩ := exists_at_moved h hother hfree hlt hn hnext hne ho
    exact ⟨_, m, hm, hkey.symm, hvalue.symm⟩

end

/-- A new key takes its main node, and the one that stood there gives way. -/
theorem Linked.scatterAside (h : t.Linked) (hslot : t.slot? k = none)
    (hnew : ∀ i n, t.At i n → n.key ≠ k) {other : Node} {free : Nat}
    (hother : t.At (k.mainNode t.nodes.size) other) (hfree : ∀ n, ¬t.At free n)
    (hlt : free < t.nodes.size)
    (haway : other.key.mainNode t.nodes.size ≠ k.mainNode t.nodes.size) :
    t.Scatters k v (t.scatterBeside other free k v) := by
  obtain ⟨p, hp, hnodup⟩ := (h.reached _ _ hother).exists_path
  obtain ⟨n, hn, hnext, hne⟩ :=
    nodeBefore_of_path hp hnodup haway (hp.length_le hnodup hother.lt)
  generalize hbefore : t.nodeBefore (k.mainNode t.nodes.size) t.nodes.size
    (other.key.mainNode t.nodes.size) = before at hn hne
  obtain ⟨hlinked, hgone, hsame⟩ := h.moved hother hfree hlt hn hnext hne haway
  have hsize : (t.moved other (k.mainNode t.nodes.size) free before).nodes.size = t.nodes.size := by
    simp [Table.moved, withNode, modifyNode, altered, replaced]
  -- the new key takes a main node that has become free
  have heq : t.scatterBeside other free k v =
      (t.moved other (k.mainNode t.nodes.size) free before).occupy (k.mainNode t.nodes.size) k v := by
    have hnone := getD_eq_none hgone
    unfold scatterBeside Table.occupy
    dsimp only
    rw [if_neg haway, hnone, nodeBefore_freeBelow, hbefore]
    simp [Table.moved, withNode, replaced, modifyNode]
  have hput := hlinked.occupy (k := k) (v := v) hslot
    (fun i n hn hkey => by
      obtain ⟨j, m, hm, hk, -⟩ := (hsame n.key n.value).mp ⟨i, n, hn, rfl, rfl⟩
      exact hnew j m hm (hk.trans hkey))
    (by rw [hsize]; exact hother.pos)
    (by rw [hsize, occupant?, getD_eq_none hgone]; rfl)
  rw [hsize, ← heq] at hput
  refine ⟨hput.linked, hput.slots_eq, hput.size_eq.trans hsize, fun l w => ?_, fun i n hn => ?_⟩
  · rw [hput.entry_iff, Entry, Entry, hsame]
  · refine (hput.key_of_at i n hn).imp id ?_
    rintro ⟨j, m, hm, hkey⟩
    obtain ⟨j, m', hm', hkey', -⟩ := (hsame m.key m.value).mp ⟨j, m, hm, rfl, rfl⟩
    exact ⟨j, m', hm', hkey'.trans hkey⟩

theorem freeNode?_eq_some {below free : Nat} (h : t.freeNode? below = some free) :
    (∀ n, ¬t.At free n) ∧ free < below := by
  induction below with
  | zero => cases h
  | succ below ih =>
    unfold freeNode? at h
    split at h
    · next hnone =>
      cases h
      refine ⟨fun n hn => ?_, Nat.lt_succ_self _⟩
      rw [hn.getD] at hnone
      cases hnone
    · exact ⟨(ih h).1, Nat.lt_succ_of_lt (ih h).2⟩

/-- A new key is put in and no other one is lost, as long as there is a node for it. -/
theorem Linked.scatter (h : t.Linked) (hslot : t.slot? k = none) (hnew : t.node? k = none)
    (hroom : t.hasRoom k = true) : t.Scatters k v (t.scatter k v) := by
  have hnew : ∀ i n, t.At i n → n.key ≠ k := by
    rintro i n hn rfl
    rw [h.node?_eq hn] at hnew
    cases hnew
  obtain ⟨hsome, hfree⟩ := Bool.and_eq_true_iff.mp hroom
  have hpos : 0 < t.nodes.size := by
    simpa [Array.isEmpty_iff_size_eq_zero, Nat.pos_iff_ne_zero] using hsome
  unfold Table.scatter
  dsimp only
  cases hoccupant : t.occupant? (k.mainNode t.nodes.size) with
  | none => exact h.occupy hslot hnew hpos hoccupant
  | some other =>
    have hother : t.At (k.mainNode t.nodes.size) other :=
      at_of_getD (Option.eq_some_of_filter_eq_some hoccupant)
    rw [hoccupant] at hfree
    obtain ⟨free, hfree⟩ := Option.isSome_iff_exists.mp hfree
    rw [hfree]
    obtain ⟨hgone, hbelow⟩ := freeNode?_eq_some hfree
    have hlt := Nat.lt_of_lt_of_le hbelow h.freeBelow_le
    by_cases hhome : other.key.mainNode t.nodes.size = k.mainNode t.nodes.size
    · exact h.scatterBehind hslot hnew hother hgone hlt hhome
    · exact h.scatterAside hslot hnew hother hgone hlt hhome

end Table

end BuildComposition.Script
