import BuildComposition.Proofs.Compose.EvaluatedDescriptors
import BuildComposition.Proofs.Graph.Preorder

/-!
# The units of a plan

The units of a plan are the preorder of the forest of first visits.  Its trees start with what the root
has required.  An override has no unit, so that what it has required comes first, one deeper than the
trees of the root and without a unit above it.

## Main definitions

* `InPreorder`: the laws of the depths and parents of a plan's units

## Main results

* `Yields.exists_forest`: the units of a run are a forest, with one more for the override
* `Yields.inPreorder`: they obey the laws
-/

namespace BuildComposition

open Relation

/-- Units are in preorder: depths alone tell what required a unit, and what was required below it. -/
structure InPreorder (g : Graph Script.Memory) (spec : RootSpec) (source : DefaultsSource)
    (es : List Evaluation) (units : List ResolvedUnit) : Prop where
  parent_eq_none_iff : ∀ u ∈ units, u.parent = none ↔ u.depth = 0
  /-- What required a unit is the nearest unit of smaller depth before it, and the override where there
  is none. -/
  nearest : ∀ before u after, units = before ++ u :: after → 1 ≤ u.depth →
    (∃ p, nearest? before u.depth = some p ∧ p.depth + 1 = u.depth ∧ u.parent = some p.reference) ∨
      nearest? before u.depth = none ∧ u.depth = 1 ∧ source.isOverride = true ∧
        u.parent = some spec.overrideFile ∧ ∀ v ∈ units, v.depth = 0 → v ∈ after
  depth_lt : ∀ u ∈ units, u.depth < g.maxDepth
  /-- References tell units apart. -/
  references_nodup : (units.map (·.reference)).Nodup
  parent_iff_nearest : ∀ before u after, units = before ++ u :: after → ∀ p ∈ units,
    u.parent = some p.reference ↔ nearest? before u.depth = some p
  /-- What was required below a unit follows it without a gap. -/
  subtree_iff : ∀ before u after, units = before ++ u :: after → ∀ v,
    ReflTransGen (Child units) u v ↔ v ∈ u :: after.takeWhile (u.depth < ·.depth)
  /-- The descriptor of a parent has queued a reference to that of its child. -/
  requires : ∀ p ∈ units, ∀ c, Child units p c → g.Requires es p.descriptor c.descriptor

namespace Yields

variable {g : Graph Script.Memory} {spec : RootSpec} {source : DefaultsSource}
  {es : List Evaluation} {units : List ResolvedUnit}

/-- The units of a run are a forest, after one for the override if there is one. -/
theorem exists_forest (h : Yields g spec source es units) :
    ∃ top : Option ResolvedUnit, Forest none 0 (top.toList ++ units) ∧
      es.map (·.descriptor) = (top.toList ++ units).map (·.descriptor) ∧
      ∀ o ∈ top, source.isOverride = true ∧ o.reference = spec.overrideFile ∧
        g.Leads o.reference o.descriptor := by
  obtain ⟨override?, heq, hbuiltin, hoverride⟩ := h.descriptors_eq
  cases h with
  | builtin _ h =>
    rw [hbuiltin rfl] at heq
    exact ⟨none, h.forest rfl, heq, by simp⟩
  | @override path _ _ first _ _ _ rest _ hs h _ h' =>
    obtain ⟨d, hd, rfl⟩ := hoverride path rfl
    obtain ⟨link, _, _, _, href, _, _, hbelow⟩ := h.override_cases hs
    have hfirst := hbelow.forest rfl
    have hrest := h'.forest rfl
    simp only [List.nil_append, List.getLast?_singleton, Option.map_some, List.length_singleton,
      href] at hfirst
    -- what the override has required is one deeper, as if the override had a unit above it
    have hnode := Forest.node (u := ⟨spec.overrideFile, d, none, 0, none, .empty⟩) rfl rfl hfirst hrest
    refine ⟨some ⟨spec.overrideFile, d, none, 0, none, .empty⟩, hnode, heq, ?_⟩
    rintro o ⟨⟩
    exact ⟨rfl, rfl, hd⟩

/-- The reference of a unit leads to its descriptor, no unit is too deep, and a unit that has a parent
was queued by it. -/
theorem unit_cases (h : Yields g spec source es units) :
    ∀ u ∈ units, g.Leads u.reference u.descriptor ∧ u.depth < g.maxDepth ∧
      (u.parent = none ∨ ∃ e ∈ es, u.parent = some e.reference ∧ u.reference ∈ e.queue) := by
  have hcall : ∀ {task s fs more t}, g.Completes [] task s fs more t → fs ⊆ es → ∀ u ∈ more,
      g.Leads u.reference u.descriptor ∧ u.depth < g.maxDepth ∧
        (u.parent = none ∨ ∃ e ∈ es, u.parent = some e.reference ∧ u.reference ∈ e.queue) := by
    intro task s fs more t h hsub u hu
    obtain ⟨hleads, hdepth⟩ := h.unit_admitted u hu
    refine ⟨hleads, hdepth, ?_⟩
    rcases h.unit_queued u hu with ⟨hparent, -⟩ | ⟨e, he, hqueued⟩
    · exact .inl hparent
    · exact .inr ⟨e, hsub he, hqueued⟩
  cases h with
  | builtin _ h => exact hcall h (List.Subset.refl _)
  | override _ h _ h' =>
    intro u hu
    rcases List.mem_append.mp hu with hu | hu
    · exact hcall h (List.subset_append_left _ _) u hu
    · exact hcall h' (List.subset_append_right _ _) u hu

end Yields

/-- Units whose references lead to different descriptors have different references. -/
theorem nodup_references {g : Graph Script.Memory} {units : List ResolvedUnit}
    (h : (units.map (·.descriptor)).Nodup) (hleads : ∀ u ∈ units, g.Leads u.reference u.descriptor) :
    (units.map (·.reference)).Nodup := by
  rw [List.Nodup, List.pairwise_map] at h ⊢
  refine h.imp_of_mem fun {u v} hu hv hne heq => hne ?_
  have hu := hleads u hu
  rw [heq] at hu
  exact hu.unique (hleads v hv)

/-! ## Forests with a unit for the override -/

section

variable {top : Option ResolvedUnit} {units : List ResolvedUnit}

/-- The unit for the override is the root of the first tree. -/
theorem Forest.top_eq (h : Forest none 0 (top.toList ++ units)) :
    ∀ o ∈ top, o.depth = 0 ∧ o.parent = none := by
  rintro o rfl
  have hfirst : (some o).toList ++ units = [] ++ o :: units := rfl
  rcases h.nearest?_eq hfirst with ⟨hdepth, hparent, -⟩ | ⟨p, hp, -⟩
  · exact ⟨hdepth, hparent⟩
  · cases hp

/-- A unit is the root of a tree, or was required by the nearest unit of smaller depth, or by the
override if there is none. -/
theorem Forest.place (h : Forest none 0 (top.toList ++ units)) {before after : List ResolvedUnit}
    {u : ResolvedUnit} (heq : units = before ++ u :: after) :
    (u.depth = 0 ∧ u.parent = none) ∨
      (∃ p, nearest? before u.depth = some p ∧ p.depth + 1 = u.depth ∧
        u.parent = some p.reference) ∨
      ∃ o ∈ top, nearest? before u.depth = none ∧ u.depth = 1 ∧ u.parent = some o.reference := by
  have heq' : top.toList ++ units = (top.toList ++ before) ++ u :: after := by
    rw [heq, List.append_assoc]
  rcases h.nearest?_eq heq' with ⟨hdepth, hparent, -⟩ | ⟨p, hp, hdepth, hparent⟩
  · exact .inl ⟨hdepth, hparent⟩
  -- the nearest unit is one of the plan, or that of the override where the plan has none
  rw [nearest?_append] at hp
  cases hbefore : nearest? before u.depth with
  | some q =>
    rw [hbefore, Option.some_or, Option.some.injEq] at hp
    exact .inr (.inl ⟨p, by rw [hp], hdepth, hparent⟩)
  | none =>
    rw [hbefore, Option.none_or] at hp
    have hmem : p ∈ top := Option.mem_toList.mp (mem_of_nearest?_eq_some hp)
    have hzero := (h.top_eq p hmem).1
    exact .inr (.inr ⟨p, hmem, rfl, by omega, hparent⟩)

theorem Forest.child_iff (h : Forest none 0 (top.toList ++ units)) {p c : ResolvedUnit} :
    Child (top.toList ++ units) p c ↔ Child units p c := by
  constructor
  · rintro ⟨hc, hparent⟩
    rcases List.mem_append.mp hc with hc | hc
    · rw [(h.top_eq c (Option.mem_toList.mp hc)).2] at hparent
      cases hparent
    · exact ⟨hc, hparent⟩
  · rintro ⟨hc, hparent⟩
    exact ⟨List.mem_append_right _ hc, hparent⟩

theorem Forest.parent_iff_nearest (h : Forest none 0 (top.toList ++ units))
    (hnodup : ((top.toList ++ units).map (·.reference)).Nodup) {before after : List ResolvedUnit}
    {u : ResolvedUnit} (heq : units = before ++ u :: after) {p : ResolvedUnit} (hp : p ∈ units) :
    u.parent = some p.reference ↔ nearest? before u.depth = some p := by
  rcases h.place heq with ⟨hdepth, hparent⟩ | ⟨q, hq, -, hparent⟩ | ⟨o, ho, hnone, -, hparent⟩
  · have hnone : nearest? before u.depth = none := by
      rw [nearest?_eq_none_iff, hdepth]
      exact fun v _ => Nat.zero_le _
    simp [hparent, hnone]
  · have hq' : q ∈ top.toList ++ units := by
      rw [heq]
      exact List.mem_append_right _ (List.mem_append_left _ (mem_of_nearest?_eq_some hq))
    rw [hparent, hq, Option.some.injEq, Option.some.injEq]
    refine ⟨fun href => ?_, fun hqp => by rw [hqp]⟩
    exact List.inj_on_of_nodup_map hnodup hq' (List.mem_append_right _ hp) href
  · rw [List.map_append, List.nodup_append] at hnodup
    have hne : o.reference ≠ p.reference := hnodup.2.2 _
      (List.mem_map_of_mem (Option.mem_toList.mpr ho)) _ (List.mem_map_of_mem hp)
    simp [hparent, hnone, hne]

end

/-! ## Plans -/

theorem Yields.inPreorder {g : Graph Script.Memory} {spec : RootSpec} {source : DefaultsSource}
    {es : List Evaluation} {units : List ResolvedUnit} (h : Yields g spec source es units) :
    InPreorder g spec source es units := by
  obtain ⟨visited, hseries⟩ := h.series
  obtain ⟨top, hforest, hdescriptors, htop⟩ := h.exists_forest
  have hnodup : ((top.toList ++ units).map (·.reference)).Nodup := by
    refine nodup_references (g := g) (hdescriptors ▸ hseries.nodup) fun u hu => ?_
    rcases List.mem_append.mp hu with hu | hu
    · exact (htop u (Option.mem_toList.mp hu)).2.2
    · exact (h.unit_cases u hu).1
  refine
    { parent_eq_none_iff := fun u hu => ?_
      nearest := fun before u after heq hdepth => ?_
      depth_lt := fun u hu => (h.unit_cases u hu).2.1
      references_nodup := by
        rw [List.map_append] at hnodup
        exact (List.nodup_append.mp hnodup).2.1
      parent_iff_nearest := fun before u after heq p hp =>
        hforest.parent_iff_nearest hnodup heq hp
      subtree_iff := fun before u after heq v => ?_
      requires := fun p hp c hchild => ?_ }
  · obtain ⟨before, after, heq⟩ := List.append_of_mem hu
    rcases hforest.place heq with
      ⟨hdepth, hparent⟩ | ⟨p, -, hdepth, hparent⟩ | ⟨o, -, -, hdepth, hparent⟩
    · simp [hdepth, hparent]
    · rw [hparent, ← hdepth]
      simp
    · simp [hdepth, hparent]
  · rcases hforest.place heq with ⟨hzero, -⟩ | hnearest | ⟨o, ho, hnone, hone, hparent⟩
    · omega
    · exact .inl hnearest
    · obtain ⟨hsource, href, -⟩ := htop o ho
      refine .inr ⟨hnone, hone, hsource, href ▸ hparent, fun v hv hzero => ?_⟩
      -- all units before are at least as deep, so that the trees of the root come after
      rw [heq] at hv
      rcases List.mem_append.mp hv with hv | hv
      · have hdeep := nearest?_eq_none_iff.mp hnone v hv
        omega
      · rcases List.mem_cons.mp hv with rfl | hv
        · omega
        · exact hv
  -- the unit of the override is no child, so that the law of the forest is that of the units
  · have heq' : top.toList ++ units = (top.toList ++ before) ++ u :: after := by
      rw [heq, List.append_assoc]
    rw [← hforest.reflTransGen_iff hnodup heq' v]
    constructor
    · exact ReflTransGen.mono (fun _ _ => hforest.child_iff.mpr) _ _
    · exact ReflTransGen.mono (fun _ _ => hforest.child_iff.mp) _ _
  · obtain ⟨hc, hparent⟩ := hchild
    obtain ⟨hleads, -, hnone | ⟨e, he, hparent', hqueue⟩⟩ := h.unit_cases c hc
    · rw [hnone] at hparent
      cases hparent
    · rw [hparent, Option.some.injEq] at hparent'
      have hp := (h.unit_cases p hp).1
      rw [hparent'] at hp
      exact ⟨e, he, (hseries.leads e he).unique hp, c.reference, hqueue, hleads⟩

/-- The units of a plan are in preorder: a unit without a parent is at depth zero, any other one was
required by the nearest unit of smaller depth before it, which is less deep by one, or by the override
if there is no such unit; and what was required below a unit follows it without a gap. -/
theorem inPreorder_of_plan {tree : FileTree} {root : Root} {toolset : Toolset} {layout : Layout}
    {options : Options} {plan : Plan} (h : (compose tree root toolset options layout).1 = .ok plan) :
    ∃ spec, (root.read tree toolset layout).1 = .ok spec ∧
      plan.defaults = DefaultsSource.resolve tree root.runDir spec.overrideFile ∧
      InPreorder (root.graph tree options) spec plan.defaults
        (evaluations (compose tree root toolset options layout).2.journal) plan.units := by
  obtain ⟨spec, hspec, hdefaults, hyields⟩ := yields_of_plan h
  exact ⟨spec, hspec, hdefaults, hyields.inPreorder⟩

/-- A tree with an override that requires `b`, and with `a`, which requires `b` and `c`. -/
def branchingTree : FileTree :=
  (((FileTree.empty.putEntry [standardOverride.toList]
    (.file (Utf8.encode "prj.required(\"b\")"))).putEntry
    [['a']] (.file (Utf8.encode "prj.required(\"b\") prj.required(\"c\")"))).putEntry
    [['b']] (.file (Utf8.encode ""))).putEntry [['c']] (.file (Utf8.encode ""))

/-- The unit that the override has required comes first, and no unit is above it. -/
theorem inPreorder_branchingTree :
    ∃ (plan : Plan) (spec : RootSpec),
      (compose branchingTree (topRoot { RootSpec.empty with required := ["a"] }) ⟨"gcc"⟩
        .standard).1 = .ok plan ∧
      InPreorder ((topRoot { RootSpec.empty with required := ["a"] }).graph branchingTree .standard)
        spec plan.defaults
        (evaluations (compose branchingTree (topRoot { RootSpec.empty with required := ["a"] })
          ⟨"gcc"⟩ .standard).2.journal) plan.units ∧
      plan.units.map (fun u => (u.reference, u.parent, u.depth)) =
        [("b", some standardOverride, 1), ("a", none, 0), ("c", some "a", 1)] := by
  have hplan : (compose branchingTree (topRoot { RootSpec.empty with required := ["a"] }) ⟨"gcc"⟩
      .standard).1.toOption.map
        (fun plan => plan.units.map (fun u => (u.reference, u.parent, u.depth))) =
      some [("b", some standardOverride, 1), ("a", none, 0), ("c", some "a", 1)] := by
    decide +kernel
  obtain ⟨plan, hplan, hunits⟩ := exists_ok_of_toOption_map hplan
  obtain ⟨spec, -, -, hpreorder⟩ := inPreorder_of_plan hplan
  exact ⟨plan, spec, hplan, hpreorder, hunits⟩

end BuildComposition
