import BuildComposition.Proofs.Graph.Follows
import BuildComposition.Proofs.Lists
import Mathlib.Data.List.Nodup
import Mathlib.Logic.Relation

/-!
# Units in preorder

A unit comes before those of everything that is required below it, and these before the units of the
next reference.  The units are thus a forest in preorder, which the depths alone determine: what required
a unit is the nearest one before it that is less deep, and what is below a unit are the deeper ones right
after it.

## Main definitions

* `Forest`: units that are a forest in preorder
* `nearest?`: the nearest unit of smaller depth
* `Child`: one of some units was required by another one

## Main results

* `Forest.nearest?_eq`: what required a unit is the nearest one of smaller depth
* `Forest.reflTransGen_iff`: what is below a unit follows it without a gap
* `Graph.Completes.forest`: the units of a call are a forest
-/

namespace BuildComposition

open Relation

/-! ## Forests -/

/-- Units that are a forest in preorder, whose trees start at a depth and were required by a parent. -/
inductive Forest : Option String → Nat → List ResolvedUnit → Prop
  | nil {parent depth} : Forest parent depth []
  | node {parent depth u below rest} (hparent : u.parent = parent) (hdepth : u.depth = depth)
      (hbelow : Forest (some u.reference) (depth + 1) below) (hrest : Forest parent depth rest) :
      Forest parent depth (u :: (below ++ rest))

/-- The nearest unit of smaller depth, which is the last one. -/
def nearest? (before : List ResolvedUnit) (depth : Nat) : Option ResolvedUnit :=
  before.findRev? (·.depth < depth)

/-- One of the units was required by another one. -/
def Child (units : List ResolvedUnit) (p c : ResolvedUnit) : Prop :=
  c ∈ units ∧ c.parent = some p.reference

/-- What required a unit is another one of the units, or a parent from outside. -/
def RequiredWithin (parent : Option String) (units : List ResolvedUnit) : Prop :=
  ∀ u ∈ units, u.parent = parent ∨ ∃ p ∈ units, u.parent = some p.reference

theorem RequiredWithin.node {parent : Option String} {u : ResolvedUnit}
    {below rest : List ResolvedUnit} (h : RequiredWithin (some u.reference) below)
    (hparent : u.parent = parent) (h' : RequiredWithin parent rest) :
    RequiredWithin parent (u :: (below ++ rest)) := by
  intro v hv
  simp only [List.mem_cons, List.mem_append] at hv
  rcases hv with rfl | hv | hv
  · exact .inl hparent
  · rcases h v hv with hv | ⟨p, hp, hv⟩
    · exact .inr ⟨u, by simp, hv⟩
    · exact .inr ⟨p, by simp [hp], hv⟩
  · rcases h' v hv with hv | ⟨p, hp, hv⟩
    · exact .inl hv
    · exact .inr ⟨p, by simp [hp], hv⟩

theorem nearest?_append (xs ys : List ResolvedUnit) (depth : Nat) :
    nearest? (xs ++ ys) depth = (nearest? ys depth).or (nearest? xs depth) := by
  simp [nearest?, List.findRev?_eq_findRev?TR, List.findRev?TR, List.find?_append]

theorem nearest?_eq_none_iff {before : List ResolvedUnit} {depth : Nat} :
    nearest? before depth = none ↔ ∀ v ∈ before, depth ≤ v.depth := by
  simp [nearest?, List.findRev?_eq_findRev?TR, List.findRev?TR]

/-- The nearest unit of smaller depth comes before units that are at least as deep. -/
theorem nearest?_eq_some_iff {before : List ResolvedUnit} {depth : Nat} {p : ResolvedUnit} :
    nearest? before depth = some p ↔
      p.depth < depth ∧ ∃ left right, before = left ++ p :: right ∧ ∀ v ∈ right, depth ≤ v.depth := by
  rw [nearest?, List.findRev?_eq_findRev?TR, List.findRev?TR, List.find?_eq_some_iff_append]
  simp only [decide_eq_true_eq, Bool.not_eq_true', decide_eq_false_iff_not, Nat.not_lt,
    List.reverse_eq_iff]
  refine and_congr_right fun _ => ⟨?_, ?_⟩
  · rintro ⟨right, left, heq, hright⟩
    exact ⟨left.reverse, right.reverse, by simp [heq], by simpa using hright⟩
  · rintro ⟨left, right, heq, hright⟩
    exact ⟨right.reverse, left.reverse, by simp [heq], by simpa using hright⟩

theorem mem_of_nearest?_eq_some {before : List ResolvedUnit} {depth : Nat} {p : ResolvedUnit}
    (h : nearest? before depth = some p) : p ∈ before := by
  obtain ⟨-, left, right, rfl, -⟩ := nearest?_eq_some_iff.mp h
  exact List.mem_append_right left List.mem_cons_self

namespace Forest

variable {parent : Option String} {depth : Nat} {units : List ResolvedUnit}

theorem append {more : List ResolvedUnit} (h : Forest parent depth units)
    (h' : Forest parent depth more) : Forest parent depth (units ++ more) := by
  induction h with
  | nil => exact h'
  | node hparent hdepth hbelow _ _ ih =>
    rw [List.cons_append, List.append_assoc]
    exact .node hparent hdepth hbelow (ih h')

theorem le_depth (h : Forest parent depth units) : ∀ u ∈ units, depth ≤ u.depth := by
  induction h with
  | nil => simp
  | node _ hdepth _ _ ih ih' =>
    intro v hv
    simp only [List.mem_cons, List.mem_append] at hv
    rcases hv with rfl | hv | hv
    · omega
    · have := ih v hv
      omega
    · exact ih' v hv

/-- Either a unit is the root of a tree, or what required it is the nearest unit of smaller depth, which
is less deep by one. -/
theorem nearest?_eq (h : Forest parent depth units) {before after : List ResolvedUnit}
    {u : ResolvedUnit} (heq : units = before ++ u :: after) :
    (u.depth = depth ∧ u.parent = parent ∧ nearest? before u.depth = none) ∨
      ∃ p, nearest? before u.depth = some p ∧ p.depth + 1 = u.depth ∧
        u.parent = some p.reference := by
  induction h generalizing before after with
  | nil => simp at heq
  | @node parent depth w below rest hparent hdepth hbelow hrest ih ih' =>
    cases before with
    | nil =>
      cases heq
      exact .inl ⟨hdepth, hparent, rfl⟩
    | cons b before =>
      obtain ⟨rfl, htail⟩ := List.cons.inj heq
      -- the split is in the trees below the first unit, or in those after it
      rcases append_eq_append_cons htail with ⟨more, hmore, -⟩ | ⟨done, rfl, hdone⟩
      · refine .inr ?_
        rcases ih hmore with ⟨hu, hrequired, hnone⟩ | ⟨p, hp, hp', hrequired⟩
        · refine ⟨w, ?_, by omega, hrequired⟩
          rw [← List.singleton_append, nearest?_append, hnone, Option.none_or]
          simp only [nearest?, List.findRev?]
          rw [if_pos (by simp; omega)]
        · refine ⟨p, ?_, hp', hrequired⟩
          rw [← List.singleton_append, nearest?_append, hp, Option.some_or]
      · rcases ih' hdone with ⟨hu, hrequired, hnone⟩ | ⟨p, hp, hp', hrequired⟩
        · refine .inl ⟨hu, hrequired, ?_⟩
          rw [← List.cons_append, nearest?_append, hnone, Option.none_or, nearest?_eq_none_iff]
          have hdeep := le_depth (.node hparent hdepth hbelow .nil)
          rw [List.append_nil] at hdeep
          intro v hv
          rw [hu]
          exact hdeep v hv
        · refine .inr ⟨p, ?_, hp', hrequired⟩
          rw [← List.cons_append, nearest?_append, hp, Option.some_or]

/-- What required a unit is one of the units, unless it is what required the trees. -/
theorem requiredWithin (h : Forest parent depth units) : RequiredWithin parent units := by
  induction h with
  | nil => exact fun _ hu => nomatch hu
  | node hparent _ _ _ ih ih' => exact ih.node hparent ih'

/-- What follows a unit splits into the forest below it and a rest, which starts no deeper than the unit
and holds nothing that was required by the unit or below it. -/
theorem exists_below (h : Forest parent depth units) {before after : List ResolvedUnit}
    {u : ResolvedUnit} (heq : units = before ++ u :: after) :
    ∃ below rest, after = below ++ rest ∧ Forest (some u.reference) (u.depth + 1) below ∧
      (∀ v, rest.head? = some v → v.depth ≤ u.depth) ∧ RequiredWithin parent (before ++ rest) := by
  induction h generalizing before after with
  | nil => simp at heq
  | @node parent depth w below rest hparent hdepth hbelow hrest ih ih' =>
    have hhead : ∀ v, rest.head? = some v → v.depth = depth := by
      intro v hv
      cases hrest with
      | nil => cases hv
      | node _ hv' =>
        cases hv
        exact hv'
    cases before with
    | nil =>
      cases heq
      refine ⟨below, rest, rfl, hdepth ▸ hbelow, fun v hv => ?_, hrest.requiredWithin⟩
      have := hhead v hv
      omega
    | cons b before =>
      obtain ⟨rfl, htail⟩ := List.cons.inj heq
      rcases append_eq_append_cons htail with ⟨more, hmore, rfl⟩ | ⟨done, rfl, hdone⟩
      · obtain ⟨below', rest', rfl, hforest, hshallow, hrequired⟩ := ih hmore
        refine ⟨below', rest' ++ rest, List.append_assoc .., hforest, fun v hv => ?_, ?_⟩
        -- where the trees below the first unit end with it, the next root is less deep
        · cases rest' with
          | nil =>
            have hu := hbelow.le_depth u (by rw [hmore]; simp)
            have := hhead v hv
            omega
          | cons x rest' => exact hshallow v hv
        · have hnode := hrequired.node hparent hrest.requiredWithin
          rwa [List.append_assoc] at hnode
      · obtain ⟨below', rest', rfl, hforest, hshallow, hrequired⟩ := ih' hdone
        refine ⟨below', rest', rfl, hforest, hshallow, ?_⟩
        have hnode := hbelow.requiredWithin.node hparent hrequired
        rwa [← List.append_assoc] at hnode

/-- The units of a forest were required by what required its trees, directly or through others. -/
theorem transGen (h : Forest parent depth units) {u : ResolvedUnit}
    (hparent : parent = some u.reference) {all : List ResolvedUnit} (hsub : units ⊆ all) :
    ∀ v ∈ units, TransGen (Child all) u v := by
  induction h generalizing u with
  | nil => simp
  | @node parent depth w below rest hw _ _ _ ih ih' =>
    obtain ⟨hmem, hsub'⟩ := List.cons_subset.mp hsub
    obtain ⟨hbelow, hrest⟩ := List.append_subset.mp hsub'
    have hchild : Child all u w := ⟨hmem, hw.trans hparent⟩
    intro v hv
    simp only [List.mem_cons, List.mem_append] at hv
    rcases hv with rfl | hv | hv
    · exact .single hchild
    · exact .head hchild (ih rfl hbelow v hv)
    · exact ih' hparent hrest v hv

theorem takeWhile_eq {u : ResolvedUnit} {below rest : List ResolvedUnit}
    (hbelow : ∀ v ∈ below, u.depth < v.depth) (hrest : ∀ v, rest.head? = some v → v.depth ≤ u.depth) :
    (below ++ rest).takeWhile (u.depth < ·.depth) = below := by
  rw [List.takeWhile_append_of_pos (by simpa using hbelow)]
  cases rest with
  | nil => simp
  | cons v rest =>
    have := hrest v rfl
    rw [List.takeWhile_cons_of_neg (by simp; omega), List.append_nil]

/-- What was required below a unit, and the unit itself, follow one another without a gap: they end where
a unit is no deeper than it. -/
theorem reflTransGen_iff (h : Forest none depth units) (hnodup : (units.map (·.reference)).Nodup)
    {before after : List ResolvedUnit} {u : ResolvedUnit} (heq : units = before ++ u :: after)
    (v : ResolvedUnit) :
    ReflTransGen (Child units) u v ↔ v ∈ u :: after.takeWhile (u.depth < ·.depth) := by
  obtain ⟨below, rest, rfl, hforest, hshallow, hrequired⟩ := h.exists_below heq
  -- the deeper units right after it are the forest below it
  rw [takeWhile_eq hforest.le_depth hshallow]
  have hsub : below ⊆ units := by
    rw [heq]
    exact fun x hx => by simp [hx]
  have hperm : units.Perm ((before ++ rest) ++ u :: below) := by
    rw [heq, List.append_assoc, ← List.cons_append]
    exact List.perm_append_comm.append_left before
  rw [(hperm.map _).nodup_iff, List.map_append, List.nodup_append] at hnodup
  obtain ⟨-, -, hdisjoint⟩ := hnodup
  constructor
  · intro hreach
    induction hreach with
    | refl => exact List.mem_cons_self
    | @tail p c _ hchild hp =>
      -- a unit outside was required by one outside, and references tell units apart
      obtain ⟨hc, hparent⟩ := hchild
      rcases List.mem_append.mp (hperm.subset hc) with hc | hc
      · rcases hrequired c hc with hnone | ⟨q, hq, hparent'⟩
        · rw [hnone] at hparent
          cases hparent
        · rw [hparent] at hparent'
          exact absurd (Option.some.inj hparent').symm
            (hdisjoint _ (List.mem_map_of_mem hq) _ (List.mem_map_of_mem hp))
      · exact hc
  · intro hv
    rcases List.mem_cons.mp hv with rfl | hv
    · exact .refl
    · exact (hforest.transGen rfl hsub v hv).to_reflTransGen

end Forest

/-! ## The units of a call -/

namespace Graph

variable {μ : Type} {g : Graph μ} {below : List Link} {task : Task} {s t : GraphState μ}
  {es : List Evaluation} {units : List ResolvedUnit}

/-- The units of projects that are required at a place are a forest. -/
theorem Completes.forest (h : g.Completes below task s es units t) (hkind : task.kind = .project) :
    Forest (below.getLast?.map (·.reference)) below.length units := by
  induction h with
  | skipped | nil => exact .nil
  | @evaluated below _ _ link _ _ frame _ _ units _ _ _ _ _ ih =>
    cases hkind
    have hbelow := ih rfl
    rw [List.getLast?_concat, List.length_append, List.length_singleton] at hbelow
    have hnode := Forest.node (u := ⟨link.reference, link.descriptor,
      below.getLast?.map (·.reference), below.length, frame.target, frame.settings⟩) rfl rfl hbelow .nil
    rwa [List.append_nil] at hnode
  | cons _ _ ih ih' => exact (ih rfl).append (ih' rfl)

/-- Projects alone have a unit, which tells where they were required. -/
theorem eq_of_mem_unitOf {kind : DescriptorKind} {link : Link} {frame : Frame} {u : ResolvedUnit}
    (h : u ∈ (unitOf kind below link frame).toList) :
    u.reference = link.reference ∧ u.descriptor = link.descriptor ∧
      u.parent = below.getLast?.map (·.reference) ∧ u.depth = below.length := by
  cases kind with
  | override => cases h
  | project =>
    rw [unitOf, Option.toList_some, List.mem_singleton] at h
    rw [h]
    exact ⟨rfl, rfl, rfl, rfl⟩

/-- The reference of a unit leads to its descriptor, and no unit is too deep. -/
theorem Completes.unit_admitted (h : g.Completes below task s es units t) :
    ∀ u ∈ units, g.Leads u.reference u.descriptor ∧ u.depth < g.maxDepth := by
  induction h with
  | skipped | nil => simp
  | @evaluated below kind _ link _ _ _ _ _ _ _ ha _ _ _ ih =>
    intro u hu
    rcases List.mem_append.mp hu with hu | hu
    · obtain ⟨href, hdescriptor, -, hdepth⟩ := eq_of_mem_unitOf hu
      rw [href, hdescriptor, hdepth]
      exact ⟨ha.leads, ha.depth_lt⟩
    · exact ih u hu
  | cons _ _ ih ih' =>
    intro u hu
    exact (List.mem_append.mp hu).elim (ih u) (ih' u)

/-- A unit that is not at the place itself was queued by the descriptor of its parent. -/
theorem Completes.unit_queued (h : g.Completes below task s es units t) :
    ∀ u ∈ units, u.parent = below.getLast?.map (·.reference) ∧ u.reference ∈ task.references ∨
      ∃ e ∈ es, u.parent = some e.reference ∧ u.reference ∈ e.queue := by
  induction h with
  | skipped | nil => simp
  | @evaluated below kind _ link _ requests _ _ es _ _ _ _ hr _ ih =>
    intro u hu
    rcases List.mem_append.mp hu with hu | hu
    · obtain ⟨href, -, hparent, -⟩ := eq_of_mem_unitOf hu
      rw [href]
      exact .inl ⟨hparent, by simp [Task.references]⟩
    · rcases ih u hu with ⟨hparent, hqueue⟩ | ⟨e, he, hparent⟩
      · rw [Task.references, hr.required_eq] at hqueue
        rw [List.getLast?_concat] at hparent
        exact .inr ⟨_, List.mem_cons_self, hparent, hqueue⟩
      · exact .inr ⟨e, List.mem_cons_of_mem _ he, hparent⟩
  | cons _ _ ih ih' =>
    intro u hu
    rcases List.mem_append.mp hu with hu | hu
    · rcases ih u hu with ⟨hparent, hmem⟩ | ⟨e, he, hparent⟩
      · rw [List.mem_singleton.mp hmem]
        exact .inl ⟨hparent, List.mem_cons_self⟩
      · exact .inr ⟨e, List.mem_append_left _ he, hparent⟩
    · rcases ih' u hu with ⟨hparent, hmem⟩ | ⟨e, he, hparent⟩
      · exact .inl ⟨hparent, List.mem_cons_of_mem _ hmem⟩
      · exact .inr ⟨e, List.mem_append_right _ he, hparent⟩

end Graph

end BuildComposition
