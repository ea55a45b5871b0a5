import BuildComposition.Proofs.Script.Renumbering

/-!
# Tables under other numbers

The layout of a table depends on its keys, but not on the numbers in them: an operation on a table under
other numbers gives what it gives under the old ones.

## Main definitions

* `Table.renumber`: a table under other numbers

## Main results

* `Table.get_renumber`, `Table.set_renumber`: access to entries
* `Table.setItems_renumber`, `Table.length_renumber`: items and their number
* `Table.renumber_of_holds`: a table that refers to nothing else stays as it is
-/

namespace BuildComposition.Script

theorem replaced_map {α β : Type} (f : α → β) (as : Array α) (i : Nat) (a : α) :
    replaced (as.map f) i (f a) = (replaced as i a).map f := by
  simp [replaced, Array.map_setIfInBounds]

theorem altered_map {α β : Type} {f : α → β} {g : α → α} {k : β → β} (h : ∀ a, k (f a) = f (g a))
    (as : Array α) (i : Nat) : altered (as.map f) i k = (altered as i g).map f := by
  refine Array.ext_getElem? fun j => ?_
  simp only [altered, Array.getElem?_modify, Array.getElem?_map]
  split
  · cases as[j]? <;> simp [h]
  · rfl

variable (ρ : Renumbering)

/-- A node under other numbers. -/
def Node.renumber (n : Node) : Node :=
  { n with key := n.key.renumber ρ, value := n.value.renumber ρ }

/-- A table under other numbers. -/
def Table.renumber (t : Table) : Table :=
  { t with
    slots := t.slots.map (Value.renumber ρ)
    nodes := t.nodes.map (Option.map (Node.renumber ρ))
    metatable := t.metatable.map ρ.table }

@[simp] theorem Node.renumber_one : Node.renumber 1 = id := by
  funext n
  cases n
  simp [renumber]

namespace Table

variable (t : Table) (k : Key) (v : Value)

@[simp] theorem slots_renumber : (t.renumber ρ).slots = t.slots.map (Value.renumber ρ) := rfl

@[simp] theorem limit_renumber : (t.renumber ρ).limit = t.limit := rfl

@[simp] theorem nodes_renumber :
    (t.renumber ρ).nodes = t.nodes.map (Option.map (Node.renumber ρ)) := rfl

@[simp] theorem freeBelow_renumber : (t.renumber ρ).freeBelow = t.freeBelow := rfl

@[simp] theorem metatable_renumber : (t.renumber ρ).metatable = t.metatable.map ρ.table := rfl

@[simp] theorem renumber_one : t.renumber 1 = t := by
  have hvalue : Value.renumber 1 = id := funext Value.renumber_one
  have htable : Renumbering.table 1 = id := rfl
  cases t
  simp [renumber, hvalue, htable]

@[simp] theorem renumber_empty : empty.renumber ρ = empty := by simp [renumber, empty]

variable {ρ t k v}

@[simp] theorem slot?_renumber : (t.renumber ρ).slot? (k.renumber ρ) = t.slot? k := by
  simp [slot?]

/-! ## Access -/

@[simp] theorem findFrom_renumber (fuel i : Nat) :
    (t.renumber ρ).findFrom (k.renumber ρ) fuel i = t.findFrom k fuel i := by
  induction fuel generalizing i with
  | zero => rfl
  | succ fuel ih =>
    simp only [findFrom, nodes_renumber, Array.getElem?_map]
    rcases t.nodes[i]? with - | - | n
    · rfl
    · rfl
    · simp only [Option.map_some, Node.renumber, (Key.renumber_injective ρ).eq_iff, ih]

@[simp] theorem node?_renumber : (t.renumber ρ).node? (k.renumber ρ) = t.node? k := by
  simp [node?]

@[simp] theorem nodeValue_renumber (i : Nat) :
    (t.renumber ρ).nodeValue i = (t.nodeValue i).renumber ρ := by
  simp only [nodeValue, nodes_renumber, Array.getElem?_map]
  rcases t.nodes[i]? with - | - | n <;> rfl

theorem getD_slots_renumber (i : Nat) :
    (t.renumber ρ).slots.getD i .nil = (t.slots.getD i .nil).renumber ρ := by
  simp only [slots_renumber, Array.getD_eq_getD_getElem?, Array.getElem?_map]
  cases t.slots[i]? <;> rfl

@[simp] theorem get_renumber : (t.renumber ρ).get (k.renumber ρ) = (t.get k).renumber ρ := by
  simp only [get, slot?_renumber, node?_renumber]
  cases t.slot? k with
  | some i => exact getD_slots_renumber i
  | none =>
    cases t.node? k with
    | some i => exact nodeValue_renumber i
    | none => rfl

@[simp] theorem touch_renumber : (t.renumber ρ).touch (k.renumber ρ) = (t.touch k).renumber ρ := by
  simp only [touch, slot?_renumber]
  cases t.slot? k with
  | none => rfl
  | some i =>
    by_cases h : t.limit ≤ i <;> simp [h, renumber]

/-! ## Scattering -/

theorem modifyNode_renumber {f f' : Node → Node} (h : ∀ n : Node, f' (n.renumber ρ) = (f n).renumber ρ)
    (i : Nat) : (t.renumber ρ).modifyNode i f' = (t.modifyNode i f).renumber ρ := by
  have hnodes := altered_map (f := Option.map (Node.renumber ρ)) (g := Option.map f) (k := Option.map f')
    (fun n => by cases n <;> simp [h]) t.nodes i
  simp only [modifyNode, renumber, hnodes]

theorem withNode_renumber (i : Nat) (n : Node) :
    { t.renumber ρ with nodes := replaced (t.renumber ρ).nodes i (some (n.renumber ρ)) } =
      ({ t with nodes := replaced t.nodes i (some n) } : Table).renumber ρ := by
  have hnodes := replaced_map (Option.map (Node.renumber ρ)) t.nodes i (some n)
  simpa [renumber] using hnodes

theorem getD_nodes_renumber (i : Nat) :
    (t.renumber ρ).nodes.getD i none = (t.nodes.getD i none).map (Node.renumber ρ) := by
  simp only [nodes_renumber, Array.getD_eq_getD_getElem?, Array.getElem?_map]
  cases t.nodes[i]? <;> rfl

@[simp] theorem freeNode?_renumber (n : Nat) : (t.renumber ρ).freeNode? n = t.freeNode? n := by
  induction n with
  | zero => rfl
  | succ n ih => simp only [freeNode?, getD_nodes_renumber, Option.isNone_map, ih]

@[simp] theorem nodeBefore_renumber (i fuel j : Nat) :
    (t.renumber ρ).nodeBefore i fuel j = t.nodeBefore i fuel j := by
  induction fuel generalizing j with
  | zero => rfl
  | succ fuel ih =>
    simp only [nodeBefore, nodes_renumber, Array.getElem?_map]
    rcases t.nodes[j]? with - | - | n
    · rfl
    · rfl
    · simp only [Option.map_some, Node.renumber, ih]

theorem occupy_renumber (i : Nat) :
    (t.renumber ρ).occupy i (k.renumber ρ) (v.renumber ρ) = (t.occupy i k v).renumber ρ := by
  have hnext : ((t.renumber ρ).nodes.getD i none).bind (·.next) = (t.nodes.getD i none).bind (·.next) := by
    rw [getD_nodes_renumber]
    cases t.nodes.getD i none <;> rfl
  unfold occupy
  rw [hnext]
  exact withNode_renumber i ⟨k, v, _⟩

@[simp] theorem occupant?_renumber (main : Nat) :
    (t.renumber ρ).occupant? main = (t.occupant? main).map (Node.renumber ρ) := by
  simp only [occupant?, getD_nodes_renumber]
  cases t.nodes.getD main none with
  | none => rfl
  | some n => simp [Option.filter, Node.renumber, apply_ite (Option.map _)]

@[simp] theorem hasRoom_renumber : (t.renumber ρ).hasRoom (k.renumber ρ) = t.hasRoom k := by
  simp [hasRoom, Array.isEmpty]

theorem scatterBeside_renumber (other : Node) (free : Nat) :
    (t.renumber ρ).scatterBeside (other.renumber ρ) free (k.renumber ρ) (v.renumber ρ) =
      (t.scatterBeside other free k v).renumber ρ := by
  have hsize : (t.renumber ρ).nodes.size = t.nodes.size := Array.size_map
  have hfree : { t.renumber ρ with freeBelow := free } = ({ t with freeBelow := free } : Table).renumber ρ :=
    rfl
  have hkey : (other.renumber ρ).key = other.key.renumber ρ := rfl
  have hlinked : ∀ (u : Table) (i : Nat), (u.renumber ρ).modifyNode i (fun n => { n with next := some free }) =
      (u.modifyNode i fun n => { n with next := some free }).renumber ρ :=
    fun u i => modifyNode_renumber (f := fun n => { n with next := some free }) (fun _ => rfl) i
  have hput : ∀ (u : Table) (i : Nat) (n : Node),
      { u.renumber ρ with nodes := replaced (u.renumber ρ).nodes i (some (n.renumber ρ)) } =
        ({ u with nodes := replaced u.nodes i (some n) } : Table).renumber ρ :=
    fun u i n => withNode_renumber i n
  unfold scatterBeside
  simp only [hsize, hfree, hkey, Key.mainNode_renumber]
  split
  · have hnew := hput { t with freeBelow := free } free ⟨k, v, other.next⟩
    exact (congrArg (modifyNode · _ _) hnew).trans (hlinked _ _)
  · rw [nodeBefore_renumber, hlinked]
    generalize modifyNode _ _ _ = u
    have hnew := hput { u with nodes := replaced u.nodes free (some other) } (k.mainNode t.nodes.size)
      ⟨k, v, none⟩
    rw [← hput u free other] at hnew
    exact hnew

theorem scatter_renumber :
    (t.renumber ρ).scatter (k.renumber ρ) (v.renumber ρ) = (t.scatter k v).renumber ρ := by
  have hsize : (t.renumber ρ).nodes.size = t.nodes.size := Array.size_map
  simp only [scatter, hsize, Key.mainNode_renumber, occupant?_renumber, freeBelow_renumber, freeNode?_renumber]
  cases t.occupant? (k.mainNode t.nodes.size) with
  | none => exact occupy_renumber _
  | some other =>
    cases t.freeNode? t.freeBelow with
    | none => rfl
    | some free => exact scatterBeside_renumber other free

theorem withSlot_renumber (i : Nat) :
    { t.renumber ρ with slots := replaced (t.renumber ρ).slots i (v.renumber ρ) } =
      ({ t with slots := replaced t.slots i v } : Table).renumber ρ := by
  have hslots := replaced_map (Value.renumber ρ) t.slots i v
  simpa [renumber] using hslots

theorem withValue_renumber (i : Nat) :
    (t.renumber ρ).modifyNode i (fun n => { n with value := v.renumber ρ }) =
      (t.modifyNode i fun n => { n with value := v }).renumber ρ :=
  modifyNode_renumber (f := fun n => { n with value := v }) (fun _ => rfl) i

@[simp] theorem place_renumber :
    (t.renumber ρ).place (k.renumber ρ) (v.renumber ρ) = (t.place k v).renumber ρ := by
  simp only [place, slot?_renumber, node?_renumber, Value.present_renumber, hasRoom_renumber]
  cases t.slot? k with
  | some i => exact withSlot_renumber i
  | none =>
    cases t.node? k with
    | some i => exact withValue_renumber i
    | none =>
      dsimp only
      split
      · exact scatter_renumber
      · rfl

/-! ## Layout -/

@[simp] theorem placeItems_renumber (n : Nat) (vs : List Value) :
    (t.renumber ρ).placeItems n (vs.map (Value.renumber ρ)) = (t.placeItems n vs).renumber ρ := by
  induction vs generalizing t n with
  | nil => rfl
  | cons v vs ih =>
    have hplace := place_renumber (ρ := ρ) (t := t) (k := .ofNat n) (v := v)
    rw [Key.renumber_ofNat] at hplace
    simp only [List.map_cons, placeItems, Value.present_renumber, hplace]
    split <;> exact ih _

@[simp] theorem placeNodes_renumber (nodes : List (Option Node)) :
    (t.renumber ρ).placeNodes (nodes.map (Option.map (Node.renumber ρ))) =
      (t.placeNodes nodes).renumber ρ := by
  induction nodes generalizing t with
  | nil => rfl
  | cons node rest ih =>
    cases node with
    | none => exact ih
    | some n =>
      have hplace := place_renumber (ρ := ρ) (t := t) (k := n.key) (v := n.value)
      simp only [List.map_cons, Option.map_some, placeNodes, Node.renumber, Value.present_renumber, hplace]
      split <;> exact ih

@[simp] theorem resize_renumber (slots nodes : Nat) :
    (t.renumber ρ).resize slots nodes = (t.resize slots nodes).renumber ρ := by
  have hlost : ((t.renumber ρ).slots.extract slots (t.renumber ρ).slots.size).toList =
      (t.slots.extract slots t.slots.size).toList.map (Value.renumber ρ) := by
    simp [← Array.map_extract]
  have hnodes : (t.renumber ρ).nodes.toList = t.nodes.toList.map (Option.map (Node.renumber ρ)) := by
    simp
  unfold resize
  dsimp only
  rw [hlost, hnodes, ← placeNodes_renumber, ← placeItems_renumber]
  congr 2
  simp [renumber, ← Array.map_extract, Value.renumber]

@[simp] theorem renumber_make (items entries : Nat) : (make items entries).renumber ρ = make items entries := by
  rw [make, ← resize_renumber, renumber_empty]

theorem slotKeys_renumber : (t.renumber ρ).slotKeys = t.slotKeys.map (Key.renumber ρ) := by
  have hslots : (t.renumber ρ).slots.toList.zipIdx 1 =
      (t.slots.toList.zipIdx 1).map (Prod.map (Value.renumber ρ) id) := by
    simp [List.zipIdx_map]
  rw [slotKeys, slotKeys, hslots, List.filterMap_map, List.map_filterMap]
  refine List.filterMap_congr fun ⟨v, n⟩ _ => ?_
  simp only [Function.comp_apply, Prod.map_apply, Value.present_renumber, id_eq]
  split <;> rfl

theorem nodeKeys_renumber : (t.renumber ρ).nodeKeys = t.nodeKeys.map (Key.renumber ρ) := by
  simp only [nodeKeys, nodes_renumber, Array.toList_map, List.filterMap_map, List.map_filterMap]
  refine List.filterMap_congr fun node _ => ?_
  cases node with
  | none => rfl
  | some n =>
    simp only [Function.comp_apply, Option.map_some, Option.bind_some, Node.renumber, Value.present_renumber]
    split <;> rfl

theorem keys_renumber : (t.renumber ρ).keys = t.keys.map (Key.renumber ρ) := by
  rw [keys, keys, slotKeys_renumber, nodeKeys_renumber, List.map_append]

@[simp] theorem rehash_renumber : (t.renumber ρ).rehash (k.renumber ρ) = (t.rehash k).renumber ρ := by
  have hkey : ∀ (counts : Array Nat) (k : Key), countKey counts (k.renumber ρ) = countKey counts k := by
    intro counts k
    rw [countKey, Key.slotNumber?_renumber, countKey]
  have hkeys : k.renumber ρ :: (t.renumber ρ).keys = (k :: t.keys).map (Key.renumber ρ) := by
    rw [keys_renumber, List.map_cons]
  unfold rehash
  dsimp only
  rw [hkeys, List.foldl_map, List.length_map]
  simp only [hkey, resize_renumber]

/-- What is put into a table under other numbers is found under other numbers. -/
@[simp] theorem set_renumber :
    (t.renumber ρ).set (k.renumber ρ) (v.renumber ρ) = (t.set k v).renumber ρ := by
  simp only [set, touch_renumber, slot?_renumber, node?_renumber, Value.present_renumber, hasRoom_renumber,
    rehash_renumber, place_renumber]
  cases (t.touch k).slot? k with
  | some i => exact withSlot_renumber i
  | none =>
    cases (t.touch k).node? k with
    | some i => exact withValue_renumber i
    | none =>
      dsimp only
      split
      · rfl
      · split
        · exact scatter_renumber
        · rfl

theorem renumber_ofFields (fields : List (String × Value)) :
    (ofFields fields).renumber ρ = ofFields (fields.map fun f => (f.1, f.2.renumber ρ)) := by
  have hentries : ∀ (entries : List (Key × Value)) (t : Table),
      (entries.foldl (fun t e => t.set e.1 e.2) t).renumber ρ =
        (entries.map fun e => (e.1.renumber ρ, e.2.renumber ρ)).foldl (fun t e => t.set e.1 e.2)
          (t.renumber ρ) := by
    intro entries
    induction entries with
    | nil => exact fun _ => rfl
    | cons e entries ih =>
      intro t
      rw [List.map_cons, List.foldl_cons, List.foldl_cons, set_renumber, ih]
  rw [ofFields, ofEntries, hentries, renumber_empty, ofFields, ofEntries, List.map_map, List.map_map]
  rfl

/-- A table that refers to nothing but what keeps its number stays as it is. -/
theorem renumber_of_holds (h : t.Holds fun v => v.renumber ρ = v) : t.renumber ρ = t := by
  have hslots : t.slots.map (Value.renumber ρ) = t.slots := by
    conv_rhs => rw [← Array.map_id t.slots]
    exact Array.map_congr_left h.slots
  have hnodes : t.nodes.map (Option.map (Node.renumber ρ)) = t.nodes := by
    conv_rhs => rw [← Array.map_id t.nodes]
    refine Array.map_congr_left fun node hnode => ?_
    cases node with
    | none => rfl
    | some n =>
      obtain ⟨hkey, hvalue⟩ := h.nodes n hnode
      simp [Node.renumber, Key.renumber_of_value ρ hkey, hvalue]
  have hmetatable : t.metatable.map ρ.table = t.metatable := by
    rw [h.metatable]
    rfl
  rw [renumber, hslots, hnodes, hmetatable]

theorem fill_renumber (slots : Array Value) (i : Nat) (vs : List Value) :
    fill (slots.map (Value.renumber ρ)) i (vs.map (Value.renumber ρ)) =
      (fill slots i vs).map (Value.renumber ρ) := by
  induction vs generalizing slots i with
  | nil => rfl
  | cons v vs ih => rw [List.map_cons, fill, fill, ← ih, Array.map_setIfInBounds]

@[simp] theorem setItems_renumber (offset : Nat) (vs : List Value) :
    (t.renumber ρ).setItems offset (vs.map (Value.renumber ρ)) = (t.setItems offset vs).renumber ρ := by
  have hroom : (if (t.renumber ρ).slots.size < offset + vs.length then
      (t.renumber ρ).resize (offset + vs.length) (t.renumber ρ).nodes.size else t.renumber ρ) =
        (if t.slots.size < offset + vs.length then t.resize (offset + vs.length) t.nodes.size
          else t).renumber ρ := by
    simp only [slots_renumber, nodes_renumber, Array.size_map, resize_renumber]
    split <;> rfl
  unfold setItems
  dsimp only
  rw [List.length_map, hroom, slots_renumber, fill_renumber]
  rfl

/-! ## Length -/

theorem taken_renumber : (t.renumber ρ).taken = t.taken := by
  funext n
  rw [taken, taken, getD_slots_renumber, Value.present_renumber]

theorem lengthInNodes_renumber (size : Nat) : (t.renumber ρ).lengthInNodes size = t.lengthInNodes size := by
  have hpresent : ∀ n, ((t.renumber ρ).getNat n).present = (t.getNat n).present := by
    intro n
    rw [getNat, ← Key.renumber_ofNat ρ, get_renumber, Value.present_renumber]
    rfl
  simp only [lengthInNodes, hpresent]

@[simp] theorem length_renumber :
    (t.renumber ρ).length = (t.length.1, t.length.2.renumber ρ) := by
  simp only [length, slots_renumber, Array.size_map, limit_renumber, taken_renumber, lengthInNodes_renumber]
  repeat' split
  all_goals rfl

end Table

end BuildComposition.Script
