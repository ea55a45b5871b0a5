import BuildComposition.Proofs.Compose.Course

/-!
# The descriptors of a plan

A run that gives a plan has evaluated exactly those descriptors that its root requires, directly or
through others, and the override with those that it requires.  Each of them was evaluated once, and each
but the override has one unit in the plan.

## Main definitions

* `AccountsFor`: the units of a plan are those of the descriptors that were reached

## Main results

* `Yields.descriptors_eq`: what was evaluated is what has a unit, and the override
* `series_of_plan`: the calls of a run as one series
* `accountsFor_of_series`: calls that succeed account for what was reached
-/

namespace BuildComposition

/-- The evaluations of a run are those of the descriptors that its references reach, and its units are
those of the same descriptors but the override. -/
structure AccountsFor (g : Graph Script.Memory) (references : List String) (override? : Option Path)
    (es : List Evaluation) (units : List ResolvedUnit) : Prop where
  evaluated_iff : ∀ p, (∃ e ∈ es, e.descriptor = p) ↔ g.Reaches es references p
  evaluated_once : (es.map (·.descriptor)).Nodup
  /-- The references of the root lead to descriptors that were evaluated, and so do those that these
  have queued. -/
  leadInto : g.LeadInto references (es.map (·.descriptor)) ∧
    ∀ e ∈ es, g.LeadInto e.queue (es.map (·.descriptor))
  has_unit_iff : ∀ p, (∃ u ∈ units, u.descriptor = p) ↔
    g.Reaches es references p ∧ override? ≠ some p
  one_unit : (units.map (·.descriptor)).Nodup
  /-- The root has no unit. -/
  root_apart : ∀ l ∈ g.root, ∀ u ∈ units, l.descriptor.agrees u.descriptor = false

theorem filter_isProject_eq {es : List Evaluation} (h : ∀ e ∈ es, e.isProject = true) :
    es.filter Evaluation.isProject = es := List.filter_eq_self.mpr h

/-- The descriptors that were evaluated are those of the units, after that of the override. -/
theorem Yields.descriptors_eq {g : Graph Script.Memory} {spec : RootSpec} {source : DefaultsSource}
    {es : List Evaluation} {units : List ResolvedUnit} (h : Yields g spec source es units) :
    ∃ override? : Option Path,
      es.map (·.descriptor) = override?.toList ++ units.map (·.descriptor) ∧
      (source = .builtin → override? = none) ∧
      ∀ path, source = .localOverride path → ∃ d, g.Leads spec.overrideFile d ∧ override? = some d := by
  obtain ⟨visited, hseries⟩ := h.series
  have hunits := hseries.units_eq
  cases h with
  | builtin hs h =>
    rw [filter_isProject_eq (h.isProject rfl)] at hunits
    exact ⟨none, by simpa using hunits.symm, fun _ => rfl, by simp⟩
  | override hs h hu h' =>
    obtain ⟨link, requests, gs, _, href, ha, rfl, hbelow⟩ := h.override_cases hs
    refine ⟨some link.descriptor, ?_, by simp, fun _ _ => ⟨link.descriptor, href ▸ ha.leads, rfl⟩⟩
    -- the override is evaluated first and has no unit
    have hno : ¬(link.evaluation 0 .override requests).isProject = true := by
      simp [Link.evaluation, Evaluation.isProject]
    rw [List.filter_append, List.length_nil, List.filter_cons_of_neg hno,
      filter_isProject_eq (hbelow.isProject rfl), filter_isProject_eq (h'.isProject rfl)] at hunits
    rw [hunits]
    rfl

/-- The canonical path of the override. -/
def DefaultsSource.file? (tree : FileTree) : DefaultsSource → Option Path
  | .builtin => none
  | .localOverride path => tree.canonicalFile? path

theorem accountsFor_of_series {g : Graph Script.Memory} {references : List String}
    {override? : Option Path} {es : List Evaluation} {units : List ResolvedUnit}
    {visited : List Path} (h : g.Series references es units visited)
    (heq : es.map (·.descriptor) = override?.toList ++ units.map (·.descriptor)) :
    AccountsFor g references override? es units := by
  have hnodup := h.nodup
  rw [heq, List.nodup_append] at hnodup
  obtain ⟨-, hunits, hdisjoint⟩ := hnodup
  have hmem : ∀ p, (∃ e ∈ es, e.descriptor = p) ↔
      override? = some p ∨ ∃ u ∈ units, u.descriptor = p := by
    intro p
    rw [← List.mem_map, heq, List.mem_append, Option.mem_toList, List.mem_map]
  refine
    { evaluated_iff := fun p => h.evaluated_iff_reaches
      evaluated_once := h.nodup
      leadInto := ?_
      has_unit_iff := fun p => ?_
      one_unit := hunits
      root_apart := fun l hl u hu => ?_ }
  · obtain ⟨hreferences, hqueues⟩ := h.leadInto
    have hvisited : visited ⊆ es.map (·.descriptor) := by
      rw [h.visited_eq]
      exact fun p hp => List.mem_reverse.mp hp
    exact ⟨hreferences.mono hvisited, fun e he => (hqueues e he).mono hvisited⟩
  · rw [← h.evaluated_iff_reaches, hmem]
    constructor
    · rintro ⟨u, hu, rfl⟩
      refine ⟨.inr ⟨u, hu, rfl⟩, fun hoverride => ?_⟩
      exact hdisjoint _ (by simp [hoverride]) _ (List.mem_map_of_mem hu) rfl
    · rintro ⟨hoverride | hu, hne⟩
      · exact absurd hoverride hne
      · exact hu
  · obtain ⟨e, he, hdescriptor⟩ := (hmem u.descriptor).mpr (.inr ⟨u, hu, rfl⟩)
    rw [← hdescriptor]
    exact h.apart e he l hl

/-- The calls of a run that gives a plan are one series, which has evaluated the file of the override, if
there is one, and then the descriptors of the units. -/
theorem series_of_plan {tree : FileTree} {root : Root} {toolset : Toolset} {layout : Layout}
    {options : Options} {plan : Plan} (h : (compose tree root toolset options layout).1 = .ok plan) :
    ∃ spec visited, (root.read tree toolset layout).1 = .ok spec ∧
      plan.defaults = DefaultsSource.resolve tree root.runDir spec.overrideFile ∧
      (root.graph tree options).Series (spec.references plan.defaults)
        (evaluations (compose tree root toolset options layout).2.journal) plan.units visited ∧
      (evaluations (compose tree root toolset options layout).2.journal).map (·.descriptor) =
        (plan.defaults.file? tree).toList ++ plan.units.map (·.descriptor) := by
  obtain ⟨spec, hspec, hdefaults, hyields⟩ := yields_of_plan h
  obtain ⟨visited, hseries⟩ := hyields.series
  obtain ⟨override?, heq, hbuiltin, hoverride⟩ := hyields.descriptors_eq
  have hfile : plan.defaults.file? tree = override? := by
    cases hplan : plan.defaults with
    | builtin => exact (hbuiltin hplan).symm
    | localOverride path =>
      obtain ⟨d, hd, rfl⟩ := hoverride path hplan
      rw [leads_graph_iff, ← eq_joinText_of_resolve (hdefaults.symm.trans hplan)] at hd
      exact hd
  exact ⟨spec, visited, hspec, hdefaults, hseries, hfile ▸ heq⟩

/-- Every plan accounts for what the references of its root reach: the files that they lead to are those
that were evaluated, each once, and those of the units, each of one unit, but for the file of the
override.  The root has no unit. -/
theorem accountsFor_of_plan {tree : FileTree} {root : Root} {toolset : Toolset} {layout : Layout}
    {options : Options} {plan : Plan} (h : (compose tree root toolset options layout).1 = .ok plan) :
    ∃ spec, (root.read tree toolset layout).1 = .ok spec ∧
      plan.defaults = DefaultsSource.resolve tree root.runDir spec.overrideFile ∧
      AccountsFor (root.graph tree options) (spec.references plan.defaults)
        (plan.defaults.file? tree) (evaluations (compose tree root toolset options layout).2.journal)
        plan.units := by
  obtain ⟨spec, visited, hspec, hdefaults, hseries, heq⟩ := series_of_plan h
  exact ⟨spec, hspec, hdefaults, accountsFor_of_series hseries heq⟩

/-- A tree with an override that requires `a`, which requires `b`. -/
def requiringTree : FileTree :=
  ((FileTree.empty.putEntry [standardOverride.toList]
    (.file (Utf8.encode "prj.required(\"a\")"))).putEntry
    [['a']] (.file (Utf8.encode "prj.required(\"b\")"))).putEntry [['b']] (.file (Utf8.encode ""))

/-- The references of the root lead to what the override has required, in another spelling. -/
theorem accountsFor_requiringTree :
    ∃ (plan : Plan) (spec : RootSpec),
      (compose requiringTree (topRoot { RootSpec.empty with required := ["b", "./a"] })
        ⟨"gcc"⟩ .standard).1 = .ok plan ∧
      AccountsFor ((topRoot { RootSpec.empty with required := ["b", "./a"] }).graph requiringTree
          .standard) (spec.references plan.defaults) (plan.defaults.file? requiringTree)
        (evaluations (compose requiringTree (topRoot { RootSpec.empty with required := ["b", "./a"] })
          ⟨"gcc"⟩ .standard).2.journal) plan.units ∧
      plan.references = ["a", "b"] := by
  have hplan : (compose requiringTree (topRoot { RootSpec.empty with required := ["b", "./a"] })
      ⟨"gcc"⟩ .standard).1.toOption.map (·.references) = some ["a", "b"] := by
    decide +kernel
  obtain ⟨plan, hplan, hreferences⟩ := exists_ok_of_toOption_map hplan
  obtain ⟨spec, -, -, haccounts⟩ := accountsFor_of_plan hplan
  exact ⟨plan, spec, hplan, haccounts, hreferences⟩

end BuildComposition
