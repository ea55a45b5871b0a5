import BuildComposition.Proofs.Compose.EvaluatedDescriptors
import BuildComposition.Proofs.FileTree.Canonical
import BuildComposition.Proofs.Graph.Precedence

/-!
# The order of the units

The units of a plan are in the order in which their descriptors are met when one reads the references of
the root in order, each with everything below it before the next, and those of the override first.  This
need not be the order in which the root declares them: what an earlier reference requires comes where it
is required, also if the root declares it later.

## Main definitions

* `Graph.DeclaredBefore`: a root declares one descriptor before another one
* `KeepsDeclaredOrder`: what is declared first comes first
* `InMeetingOrder`: what is met first comes first

## Main results

* `inMeetingOrder_of_series`: the units of a series of calls are in the order in which they are met
-/

namespace BuildComposition

/-- References lead to `a` before any of them leads to `b`. -/
def Graph.DeclaredBefore {μ : Type} (g : Graph μ) (references : List String) (a b : Path) : Prop :=
  ∃ before reference after, references = before ++ reference :: after ∧ g.Leads reference a ∧
    (∀ r ∈ before, ¬g.Leads r a ∧ ¬g.Leads r b) ∧ ∃ r ∈ after, g.Leads r b

/-- Of two descriptors that are declared and are not the override, the one that is declared first comes
first. -/
def KeepsDeclaredOrder (g : Graph Script.Memory) (required : List String) (override? : Option Path)
    (units : List ResolvedUnit) : Prop :=
  ∀ a b, a ≠ b → override? ≠ some a → override? ≠ some b → g.DeclaredBefore required a b →
    [a, b].Sublist (units.map (·.descriptor))

/-- A tree with `x`, which requires `b`, and with `a` and `b`. -/
def crossingTree : FileTree :=
  ((FileTree.empty.putEntry [['x']] (.file (Utf8.encode "prj.required(\"b\")"))).putEntry
    [['a']] (.file (Utf8.encode ""))).putEntry [['b']] (.file (Utf8.encode ""))

/-- The descriptor `b` is declared last, but comes right after `x`, which requires it. -/
theorem not_keepsDeclaredOrder_crossingTree :
    ∃ plan : Plan,
      (compose crossingTree (topRoot { RootSpec.empty with required := ["x", "a", "b"] }) ⟨"gcc"⟩
        .standard).1 = .ok plan ∧
      plan.references = ["x", "b", "a"] ∧
      ¬KeepsDeclaredOrder ((topRoot { RootSpec.empty with required := ["x", "a", "b"] }).graph
        crossingTree .standard) ["x", "a", "b"] (plan.defaults.file? crossingTree) plan.units := by
  have hplan : (compose crossingTree (topRoot { RootSpec.empty with required := ["x", "a", "b"] })
      ⟨"gcc"⟩ .standard).1.toOption.map
        (fun plan => (plan.references, plan.units.map (·.descriptor), plan.defaults)) =
      some (["x", "b", "a"], [⟨"/x".toList⟩, ⟨"/b".toList⟩, ⟨"/a".toList⟩], .builtin) := by
    decide +kernel
  obtain ⟨plan, hplan, h⟩ := exists_ok_of_toOption_map hplan
  obtain ⟨hreferences, hunits, hdefaults⟩ := by simpa only [Prod.mk.injEq] using h
  refine ⟨plan, hplan, hreferences, fun hkeeps => ?_⟩
  have hleads : ∀ reference descriptor, crossingTree.canonicalFile?
      (Path.joinText ⟨['/']⟩ reference) = some descriptor →
      ((topRoot { RootSpec.empty with required := ["x", "a", "b"] }).graph crossingTree
        .standard).Leads reference descriptor := fun _ _ h => leads_graph_iff.mpr h
  have hx := hleads "x" ⟨"/x".toList⟩ (by decide +kernel)
  have ha := hleads "a" ⟨"/a".toList⟩ (by decide +kernel)
  have hb := hleads "b" ⟨"/b".toList⟩ (by decide +kernel)
  have hfirst := hkeeps ⟨"/a".toList⟩ ⟨"/b".toList⟩ (by decide) (by simp [hdefaults, DefaultsSource.file?])
    (by simp [hdefaults, DefaultsSource.file?]) ⟨["x"], "a", ["b"], rfl, ha, ?_, "b", by simp, hb⟩
  · rw [hunits] at hfirst
    revert hfirst
    decide
  · rintro r hr
    rw [List.mem_singleton.mp hr]
    exact ⟨fun h => absurd (hx.unique h) (by decide), fun h => absurd (hx.unique h) (by decide)⟩

/-- The units of a run are in the order in which their descriptors are met. -/
structure InMeetingOrder (g : Graph Script.Memory) (references : List String) (override? : Option Path)
    (es : List Evaluation) (units : List ResolvedUnit) : Prop where
  /-- Of two descriptors that have units, the one that is met first comes first. -/
  precedes_iff : ∀ a ∈ units.map (·.descriptor), ∀ b ∈ units.map (·.descriptor), a ≠ b →
    ([a, b].Sublist (units.map (·.descriptor)) ↔ g.MetFirst es a b references)
  /-- What is declared first comes first, unless the other one is reached by what is declared before
  both of them, or by the override. -/
  declared_order : ∀ a b before reference after, a ≠ b → override? ≠ some a → override? ≠ some b →
    references = before ++ reference :: after → g.Leads reference a → (∃ r ∈ after, g.Leads r b) →
    ¬g.Reaches es before b → [a, b].Sublist (units.map (·.descriptor))

theorem inMeetingOrder_of_series {g : Graph Script.Memory} (hg : g.Canonical)
    {references : List String} {override? : Option Path} {es : List Evaluation}
    {units : List ResolvedUnit} {visited : List Path} (h : g.Series references es units visited)
    (heq : es.map (·.descriptor) = override?.toList ++ units.map (·.descriptor)) :
    InMeetingOrder g references override? es units := by
  have hes := h.nodup
  have hnodup := hes
  rw [heq, List.nodup_append] at hnodup
  obtain ⟨-, hunits, hdisjoint⟩ := hnodup
  have hprecedes : ∀ a ∈ units.map (·.descriptor), ∀ b ∈ units.map (·.descriptor), a ≠ b →
      ([a, b].Sublist (units.map (·.descriptor)) ↔ g.MetFirst es a b references) := by
    intro a ha b hb hne
    -- neither is the override, which is evaluated before all of them
    have hno : ∀ p ∈ units.map (·.descriptor), p ∉ override?.toList :=
      fun p hp ho => hdisjoint p ho p hp rfl
    have hnone : ¬ComesFirst a b override?.toList := by
      rintro ⟨front, back, hfront, -⟩
      exact hno a ha (by simp [hfront])
    rw [h.metFirst_iff hg hes (List.Subset.refl es), heq, comesFirst_append_iff,
      pair_sublist_iff hne hunits]
    simp [hb, hno b hb, hnone]
  refine ⟨hprecedes, fun a b before reference after hne ha hb href hleads hafter hnot => ?_⟩
  have hunit : ∀ p, g.Reaches es references p → override? ≠ some p → p ∈ units.map (·.descriptor) := by
    intro p hreaches hp
    exact List.mem_map.mpr (((accountsFor_of_series h heq).has_unit_iff p).mpr ⟨hreaches, hp⟩)
  obtain ⟨r, hr, hleads'⟩ := hafter
  have haunit := hunit a ⟨reference, by simp [href], a, hleads, .refl⟩ ha
  have hbunit := hunit b ⟨r, by simp [href, hr], b, hleads', .refl⟩ hb
  rw [hprecedes a haunit b hbunit hne, href]
  exact Graph.MetFirst.append_iff.mpr (.inr ⟨hnot, .here hleads⟩)

/-- The units of a plan are in the order in which their descriptors are met: of two descriptors the one
comes first that is met first when the references of the root are read in order, each with everything
below it before the next.  In particular this is the one that is declared first, unless the other one is
reached by the override or by what is declared before both of them. -/
theorem inMeetingOrder_of_plan {tree : FileTree} {root : Root} {toolset : Toolset} {layout : Layout}
    {options : Options} {plan : Plan} (h : (compose tree root toolset options layout).1 = .ok plan) :
    ∃ spec, (root.read tree toolset layout).1 = .ok spec ∧
      plan.defaults = DefaultsSource.resolve tree root.runDir spec.overrideFile ∧
      InMeetingOrder (root.graph tree options) (spec.references plan.defaults)
        (plan.defaults.file? tree) (evaluations (compose tree root toolset options layout).2.journal)
        plan.units := by
  obtain ⟨spec, visited, hspec, hdefaults, hseries, heq⟩ := series_of_plan h
  have hcanonical : (root.graph tree options).Canonical :=
    fun hp hq hagrees => tree.canonicalFile?_eq_of_agrees hp hq hagrees
  exact ⟨spec, hspec, hdefaults, inMeetingOrder_of_series hcanonical hseries heq⟩

/-- In a tree in which `x` requires what is declared last, `x` is met first, and then what it
requires. -/
theorem inMeetingOrder_crossingTree :
    ∃ (plan : Plan) (spec : RootSpec),
      (compose crossingTree (topRoot { RootSpec.empty with required := ["x", "a", "b"] }) ⟨"gcc"⟩
        .standard).1 = .ok plan ∧
      InMeetingOrder ((topRoot { RootSpec.empty with required := ["x", "a", "b"] }).graph crossingTree
          .standard) (spec.references plan.defaults) (plan.defaults.file? crossingTree)
        (evaluations (compose crossingTree (topRoot { RootSpec.empty with
          required := ["x", "a", "b"] }) ⟨"gcc"⟩ .standard).2.journal) plan.units ∧
      plan.references = ["x", "b", "a"] := by
  have hplan : (compose crossingTree (topRoot { RootSpec.empty with required := ["x", "a", "b"] })
      ⟨"gcc"⟩ .standard).1.toOption.map (·.references) = some ["x", "b", "a"] := by
    decide +kernel
  obtain ⟨plan, hplan, hreferences⟩ := exists_ok_of_toOption_map hplan
  obtain ⟨spec, -, -, horder⟩ := inMeetingOrder_of_plan hplan
  exact ⟨plan, spec, hplan, horder, hreferences⟩

end BuildComposition
