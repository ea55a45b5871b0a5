import BuildComposition.Proofs.Compose.UnitForest
import BuildComposition.Proofs.Path.Components

/-!
# The directories of units

The directory of a unit is written relative to the run directory if it lies below it, and as it is
otherwise.  Both ways can be told apart, so that nothing is lost; and as long as the placement is written
relative, so that an absolute directory is kept as it is, different directories get different places for
their objects.  A directory outside the run directory is not moved into the tree of the objects, though.

## Main definitions

* `Root.Opens`: a root that was made from a file or from a specification
* `Plan.Grounded`: the run directory of a plan and the descriptor of a unit are absolute
* `Placement.objectTree`: the tree of the objects of a runtime mode
* `Placement.IsRelative`: a placement that is written relative

## Main results

* `Plan.sourceDir_recoverable`: the directory of a unit is known from its source directory
* `Plan.objectDir_eq_iff`: units share a place for their objects exactly if they share a directory
* `Plan.directories_of_runtimeSubdir`: what goes below a directory for the runtime mode
-/

namespace BuildComposition

open FileTree (Settled)

/-! ## Where run directories and descriptors stand -/

/-- A root that a run can have: it was made from a file or from a specification. -/
inductive Root.Opens (tree : FileTree) (root : Root) : Prop
  | file {path : Path} (h : Root.ofFile tree path = .ok root)
  | spec {spec : RootSpec} {dir : Path} (h : Root.ofSpec tree spec dir = .ok root)

/-- A run directory is the path of a directory. -/
theorem Root.Opens.exists_location {tree : FileTree} {root : Root} (h : root.Opens tree) :
    ∃ l : Location, root.runDir = l.path ∧ tree.Settled l := by
  cases h with
  | @file path h =>
    unfold Root.ofFile at h
    split at h
    · next file hfile =>
      cases h
      obtain ⟨l, hl, hentry⟩ := FileTree.exists_directory_of_canonicalFile? hfile
      exact ⟨l, hl, .inl hentry⟩
    · cases h
  | @spec spec dir h =>
    unfold Root.ofSpec at h
    cases hdir : tree.canonicalize dir with
    | error e =>
      rw [hdir] at h
      cases h
    | ok runDir =>
      obtain ⟨-, l, hl, rfl⟩ := FileTree.canonicalize_eq_ok_iff.mp hdir
      simp only [hdir] at h
      split at h
      · cases h
        exact ⟨l, rfl, FileTree.settled_of_locate hl⟩
      · cases h

/-- The descriptor of a unit is the canonical path of a file. -/
theorem exists_reference_of_unit {tree : FileTree} {root : Root} {toolset : Toolset} {layout : Layout}
    {options : Options} {plan : Plan} (h : (compose tree root toolset options layout).1 = .ok plan)
    {u : ResolvedUnit} (hu : u ∈ plan.units) : ∃ p, tree.canonicalFile? p = some u.descriptor := by
  obtain ⟨spec, -, -, hyields⟩ := yields_of_plan h
  exact ⟨_, leads_graph_iff.mp (hyields.unit_cases u hu).1⟩

/-- The directory of a unit is the path of a directory. -/
theorem exists_directory_of_unit {tree : FileTree} {root : Root} {toolset : Toolset} {layout : Layout}
    {options : Options} {plan : Plan} (h : (compose tree root toolset options layout).1 = .ok plan)
    {u : ResolvedUnit} (hu : u ∈ plan.units) :
    ∃ l : Location, u.descriptor.parent = l.path ∧ tree.entry? l = some .directory := by
  obtain ⟨p, hp⟩ := exists_reference_of_unit h hu
  exact FileTree.exists_directory_of_canonicalFile? hp

theorem runDir_of_plan {tree : FileTree} {root : Root} {toolset : Toolset} {layout : Layout}
    {options : Options}
    {plan : Plan} (h : (compose tree root toolset options layout).1 = .ok plan) :
    plan.runDir = root.runDir := by
  obtain ⟨spec, es, fs, t, -, -, hplan, -⟩ := course_of_plan h
  rw [hplan]
  rfl

/-- The run directory of a plan is absolute, and so is the descriptor of a unit, which has a last name. -/
structure Plan.Grounded (p : Plan) (u : ResolvedUnit) : Prop where
  absolute_runDir : p.runDir.isAbsolute = true
  absolute_descriptor : u.descriptor.isAbsolute = true
  named_descriptor : u.descriptor.fileName?.isSome = true

/-- All units of a run are so. -/
theorem grounded_of_plan {tree : FileTree} {root : Root} {toolset : Toolset} {layout : Layout}
    {options : Options}
    {plan : Plan} (hroot : root.Opens tree) (h : (compose tree root toolset options layout).1 = .ok plan)
    {u : ResolvedUnit} (hu : u ∈ plan.units) : plan.Grounded u := by
  obtain ⟨l, hl, -⟩ := hroot.exists_location
  obtain ⟨reference, hfile⟩ := exists_reference_of_unit h hu
  obtain ⟨m, content, hm, -, -⟩ := FileTree.exists_file_of_canonicalFile? hfile
  obtain ⟨name, hname⟩ := FileTree.exists_fileName_of_canonicalFile? hfile
  refine ⟨?_, ?_, by rw [hname]; rfl⟩
  · rw [runDir_of_plan h, hl]
    rfl
  · rw [hm]
    rfl

/-! ## Source directories -/

namespace Plan.Grounded

variable {p : Plan} {u v : ResolvedUnit}

theorem isAbsolute_parent (h : p.Grounded u) : u.descriptor.parent.isAbsolute = true :=
  Path.isAbsolute_parent h.absolute_descriptor h.named_descriptor

/-- A source directory is what is left behind the run directory, and the whole directory if it does not
lie below the run directory. -/
theorem sourceDir_cases (h : p.Grounded u) :
    p.runDir.components <+: u.descriptor.parent.components ∧ (p.sourceDir u).anchor = .none ∧
        (p.sourceDir u).components =
          u.descriptor.parent.components.drop p.runDir.components.length ∨
      ¬p.runDir.components <+: u.descriptor.parent.components ∧
        p.sourceDir u = u.descriptor.parent := by
  have hdir : p.sourceDir u =
      (Path.stripBase? p.runDir u.descriptor.parent).getD u.descriptor.parent := rfl
  rw [hdir]
  cases hstrip : Path.stripBase? p.runDir u.descriptor.parent with
  | none => exact .inr ⟨Path.stripBase?_eq_none_iff.mp hstrip, rfl⟩
  | some rest =>
    have hfront : p.runDir.components <+: u.descriptor.parent.components := by
      by_contra hno
      rw [Path.stripBase?_eq_none_iff.mpr hno] at hstrip
      cases hstrip
    exact .inl ⟨hfront, Path.components_of_stripBase? h.absolute_runDir hstrip⟩

/-- Behind the run directory, the source directory leads to the directory of the descriptor. -/
theorem components_join_sourceDir (h : p.Grounded u) :
    (p.runDir.join (p.sourceDir u)).components = u.descriptor.parent.components := by
  rcases h.sourceDir_cases with ⟨hfront, hanchor, hcomponents⟩ | ⟨-, hwhole⟩
  · have hrelative : (p.sourceDir u).isAbsolute = false := by
      rw [Path.isAbsolute, hanchor]
      rfl
    rw [Path.components_join hrelative (Path.chars_ne_nil_of_isAbsolute h.absolute_runDir),
      Path.names_eq_components hanchor, hcomponents]
    exact List.prefix_iff_eq_append.mp hfront
  · rw [hwhole, Path.join_of_isAbsolute _ h.isAbsolute_parent]

/-- Whether the directory lies below the run directory is seen from how the source directory begins. -/
theorem isAbsolute_sourceDir (h : p.Grounded u) :
    (p.sourceDir u).isAbsolute = false ↔
      p.runDir.components <+: u.descriptor.parent.components := by
  rcases h.sourceDir_cases with ⟨hfront, hanchor, -⟩ | ⟨hno, hwhole⟩
  · simp [Path.isAbsolute, hanchor, hfront]
  · simp [hwhole, h.isAbsolute_parent, hno]

/-- Source directories with the same components are those of the same directory. -/
theorem components_parent_eq (hu : p.Grounded u) (hv : p.Grounded v)
    (h : (p.sourceDir u).components = (p.sourceDir v).components) :
    u.descriptor.parent.components = v.descriptor.parent.components := by
  have habsolute : (p.sourceDir u).isAbsolute = false ↔ (p.sourceDir v).isAbsolute = false := by
    rw [Path.not_isAbsolute_iff, Path.not_isAbsolute_iff, h]
  rw [hu.isAbsolute_sourceDir, hv.isAbsolute_sourceDir] at habsolute
  rcases hu.sourceDir_cases with ⟨hfront, -, hrest⟩ | ⟨hno, hwhole⟩ <;>
    rcases hv.sourceDir_cases with ⟨hfront', -, hrest'⟩ | ⟨hno', hwhole'⟩
  · rw [← List.prefix_iff_eq_append.mp hfront, ← hrest, h, hrest',
      List.prefix_iff_eq_append.mp hfront']
  · exact absurd (habsolute.mp hfront) hno'
  · exact absurd (habsolute.mpr hfront') hno
  · rw [← hwhole, h, hwhole']

end Plan.Grounded

/-- Nothing of the directory of a unit is lost in its source directory: behind the run directory, it leads
to the directory of the descriptor, and it is relative exactly if that lies below the run directory.  Every
unit of every run is one of those that this is said of. -/
theorem Plan.sourceDir_recoverable :
    (∀ (p : Plan) (u : ResolvedUnit), p.Grounded u →
      (p.runDir.join (p.sourceDir u)).components = u.descriptor.parent.components ∧
      ((p.sourceDir u).isAbsolute = false ↔
        p.runDir.components <+: u.descriptor.parent.components)) ∧
    ∀ (tree : FileTree) (root : Root) (toolset : Toolset) (options : Options) (layout : Layout) (p : Plan),
      root.Opens tree → (compose tree root toolset options layout).1 = .ok p → ∀ u ∈ p.units, p.Grounded u :=
  ⟨fun _ _ h => ⟨h.components_join_sourceDir, h.isAbsolute_sourceDir⟩,
    fun _ _ _ _ _ _ hroot hplan _ hu => grounded_of_plan hroot hplan hu⟩

/-- A unit in a plan with unusual spellings of the run directory and of the descriptor. -/
def spelledUnit : ResolvedUnit :=
  ⟨"a", Path.ofString "/work/./s//a/.", none, 0, none, .empty⟩

/-- A plan with this unit. -/
def spelledPlan : Plan := ⟨none, ⟨"gcc"⟩, Path.ofString "//work/.", .builtin, .empty, [spelledUnit]⟩

/-- The spellings do not matter: `s` is left of the directory. -/
theorem Plan.sourceDir_recoverable_spelledPlan :
    spelledPlan.Grounded spelledUnit ∧
      (spelledPlan.runDir.join (spelledPlan.sourceDir spelledUnit)).components =
        spelledUnit.descriptor.parent.components ∧
      ((spelledPlan.sourceDir spelledUnit).isAbsolute = false ↔
        spelledPlan.runDir.components <+: spelledUnit.descriptor.parent.components) ∧
      (spelledPlan.sourceDir spelledUnit).text = "s" := by
  have hground : spelledPlan.Grounded spelledUnit :=
    ⟨by decide +kernel, by decide +kernel, by decide +kernel⟩
  obtain ⟨hjoin, hrelative⟩ := Plan.sourceDir_recoverable.1 spelledPlan spelledUnit hground
  exact ⟨hground, hjoin, hrelative, by decide +kernel⟩

/-! ## Places for objects -/

namespace Placement

/-- The placement is written relative, so that directories are taken into account. -/
def IsRelative : Placement → Prop
  | .default => True
  | .sourceSubdir subdir => (Path.ofString subdir).isAbsolute = false
  | .runtimeSubdir root => (Path.ofString root).isAbsolute = false

/-- The tree of the objects of a runtime mode. -/
def objectTree (root : String) (mode : Option RuntimeMode) : Path := (modeDir root mode).joinText "_objs"

theorem isAbsolute_ofName (mode : Option RuntimeMode) :
    (Path.ofString ((mode.map RuntimeMode.name).getD "default")).isAbsolute = false := by
  rcases mode with - | - | - <;> decide

theorem chars_objectTree_ne_nil (root : String) (mode : Option RuntimeMode) :
    (objectTree root mode).chars ≠ [] :=
  Path.chars_join_ne_nil (by decide) (by decide)

theorem isAbsolute_objectTree (root : String) (mode : Option RuntimeMode) :
    (objectTree root mode).isAbsolute = (Path.ofString root).isAbsolute := by
  rw [objectTree, Path.joinText, Path.isAbsolute_join (by decide), modeDir, Path.joinText,
    Path.isAbsolute_join (isAbsolute_ofName mode)]

/-- Below the tree of the objects, a source directory is found again. -/
theorem components_objectTree_join (root : String) (mode : Option RuntimeMode) {d : Path}
    (hd : d.anchor = .none) : ((objectTree root mode).join d).components =
      (objectTree root mode).components ++ d.components := by
  have hrelative : d.isAbsolute = false := by
    rw [Path.isAbsolute, hd]
    rfl
  rw [Path.components_join hrelative (chars_objectTree_ne_nil root mode), Path.names_eq_components hd]

/-- Source directories that share a place for objects are the same. -/
theorem components_eq_of_objectDir {placement : Placement} (hrelative : placement.IsRelative)
    {mode : Option RuntimeMode} {d e : Path} (hd : d.anchor ≠ .here) (he : e.anchor ≠ .here)
    (h : (placement.objectDir d mode).components = (placement.objectDir e mode).components) :
    d.components = e.components := by
  cases placement with
  | default => exact h
  | sourceSubdir subdir =>
    have hsubdir : (Path.ofString subdir).isAbsolute = false := hrelative
    simp only [objectDir, Path.joinText] at h
    rw [Path.components_join_eq hsubdir, Path.components_join_eq hsubdir,
      List.append_cancel_right_eq] at h
    -- a dot at the beginning of the subdirectory counts where the source directory is empty
    have hempty : ∀ {d e : Path}, d.chars = [] → e.anchor ≠ .here →
        (Path.ofString subdir).anchor.components = e.components → d.components = e.components := by
      rintro ⟨_⟩ e rfl he heq
      rw [← heq]
      cases hanchor : (Path.ofString subdir).anchor with
      | none => rfl
      | here =>
        rw [hanchor] at heq
        exact absurd (heq ▸ List.mem_singleton_self _) (Path.here_not_mem_components he)
      | root => simp [Path.isAbsolute, hanchor] at hsubdir
    split at h <;> split at h
    · next hd' he' => exact congrArg Path.components (congrArg Path.mk (hd'.trans he'.symm))
    · next hd' _ => exact hempty hd' he h
    · next _ he' => exact (hempty he' hd h.symm).symm
    · exact h
  | runtimeSubdir root =>
    have hbelow : ∀ {d e : Path}, d.isAbsolute = false → e.isAbsolute = true →
        ((objectTree root mode).join d).components ≠ ((objectTree root mode).join e).components := by
      intro d e hd he heq
      have htree : ((objectTree root mode).join d).isAbsolute = false := by
        rw [Path.isAbsolute_join hd, isAbsolute_objectTree]
        exact hrelative
      rw [Path.not_isAbsolute_iff, heq, Path.join_of_isAbsolute _ he] at htree
      exact htree (Path.isAbsolute_iff_mem.mp he)
    have hnone : ∀ {d : Path}, d.anchor ≠ .here → d.isAbsolute = false → d.anchor = .none := by
      intro d hhere habsolute
      cases hanchor : d.anchor <;> simp_all [Path.isAbsolute]
    have h : ((objectTree root mode).join d).components =
      ((objectTree root mode).join e).components := h
    cases hd' : d.isAbsolute <;> cases he' : e.isAbsolute
    · rw [components_objectTree_join root mode (hnone hd hd'),
        components_objectTree_join root mode (hnone he he')] at h
      exact List.append_cancel_left h
    · exact absurd h (hbelow hd' he')
    · exact absurd h.symm (hbelow he' hd')
    · rwa [Path.join_of_isAbsolute _ hd', Path.join_of_isAbsolute _ he'] at h

end Placement

namespace Plan

variable {tree : FileTree} {root : Root} {toolset : Toolset} {layout : Layout} {options : Options} {p : Plan}

theorem Grounded.anchor_sourceDir {u : ResolvedUnit} (h : p.Grounded u) :
    (p.sourceDir u).anchor ≠ .here := by
  rcases h.sourceDir_cases with ⟨-, hanchor, -⟩ | ⟨-, hwhole⟩
  · simp [hanchor]
  · simp [hwhole, Path.isAbsolute_iff.mp h.isAbsolute_parent]

/-- As long as the placement is written relative, two units share a place for their objects exactly if
their descriptors lie in the same directory. -/
theorem objectDir_eq_iff (hroot : root.Opens tree)
    (hplan : (compose tree root toolset options layout).1 = .ok p)
    (hrelative : p.config.effectivePlacement.IsRelative) {u v : ResolvedUnit} (hu : u ∈ p.units)
    (hv : v ∈ p.units) : (p.objectDir u).components = (p.objectDir v).components ↔
      u.descriptor.parent = v.descriptor.parent := by
  have hgu := grounded_of_plan hroot hplan hu
  have hgv := grounded_of_plan hroot hplan hv
  constructor
  · intro h
    have hsame := hgu.components_parent_eq hgv
      (Placement.components_eq_of_objectDir hrelative hgu.anchor_sourceDir hgv.anchor_sourceDir h)
    obtain ⟨l, hl, hentry⟩ := exists_directory_of_unit hplan hu
    obtain ⟨m, hm, hentry'⟩ := exists_directory_of_unit hplan hv
    rw [hl, hm] at hsame ⊢
    rw [Path.location_eq_of_components (FileTree.validName_of_entry hentry)
      (FileTree.validName_of_entry hentry') hsame]
  · intro h
    have hsource : p.sourceDir u = p.sourceDir v := by
      unfold sourceDir
      rw [h]
    rw [objectDir, objectDir, hsource]

/-- With a directory for each runtime mode, linked targets go into that of the mode.  Objects go into its
tree, below the source directory, if the descriptor lies below the run directory.  Otherwise the source
directory is absolute, and takes the place of the tree. -/
theorem directories_of_runtimeSubdir (hroot : root.Opens tree)
    (hplan : (compose tree root toolset options layout).1 = .ok p) {dir : String}
    (hplacement : p.config.effectivePlacement = .runtimeSubdir dir) {u : ResolvedUnit}
    (hu : u ∈ p.units) :
    p.targetDir u =
        (Path.ofString dir).joinText ((p.config.runtimeMode.map RuntimeMode.name).getD "default") ∧
      (p.runDir.components <+: u.descriptor.parent.components →
        (p.objectDir u).components = (Placement.objectTree dir p.config.runtimeMode).components ++
          u.descriptor.parent.components.drop p.runDir.components.length) ∧
      (¬p.runDir.components <+: u.descriptor.parent.components →
        p.objectDir u = u.descriptor.parent) := by
  have hground := grounded_of_plan hroot hplan hu
  have hobjects : p.objectDir u =
      (Placement.objectTree dir p.config.runtimeMode).join (p.sourceDir u) := by
    rw [objectDir, hplacement]
    rfl
  refine ⟨by rw [targetDir, hplacement]; rfl, fun hbelow => ?_, fun hno => ?_⟩
  · rcases hground.sourceDir_cases with ⟨-, hanchor, hrest⟩ | ⟨hno, -⟩
    · rw [hobjects, Placement.components_objectTree_join _ _ hanchor, hrest]
    · exact absurd hbelow hno
  · rcases hground.sourceDir_cases with ⟨hbelow, -⟩ | ⟨-, hwhole⟩
    · exact absurd hbelow hno
    · rw [hobjects, hwhole, Path.join_of_isAbsolute _ hground.isAbsolute_parent]

end Plan

/-! ## A project outside the run directory -/

/-- A tree with a project in the run directory `w`, one below it, and one outside. -/
def outsideTree : FileTree :=
  ((FileTree.empty.putEntry [['w'], ['a']] (.file (Utf8.encode ""))).putEntry
    [['w'], ['s'], ['b']] (.file (Utf8.encode ""))).putEntry [['o'], ['c']] (.file (Utf8.encode ""))

/-- A specification that requires all three. -/
def outsideSpec : RootSpec := { RootSpec.empty with required := ["a", "s/b", "../o/c"] }

/-- The root of this specification in the run directory. -/
def outsideRoot : Root := ⟨.spec outsideSpec, ⟨['/', 'w']⟩⟩

theorem opens_outsideRoot : outsideRoot.Opens outsideTree := by
  have hroot : Root.ofSpec outsideTree outsideSpec ⟨['w']⟩ = .ok outsideRoot := by decide +kernel
  exact .spec hroot

/-- The run of this root gives units in three directories, and places for their objects. -/
theorem exists_plan_outsideRoot :
    ∃ p : Plan, (compose outsideTree outsideRoot ⟨"gcc"⟩ .standard).1 = .ok p ∧
      p.config.effectivePlacement = .runtimeSubdir "target" ∧
      ∀ dirs ∈ [("/w", "target/release/_objs/"), ("/w/s", "target/release/_objs/s"), ("/o", "/o")],
        ∃ u ∈ p.units, u.descriptor.parent.text = dirs.1 ∧ (p.objectDir u).text = dirs.2 := by
  have hrun : (compose outsideTree outsideRoot ⟨"gcc"⟩ .standard).1.toOption.map
      (fun p => (p.config.effectivePlacement,
        p.units.map fun u => (u.descriptor.parent.text, (p.objectDir u).text))) =
      some (.runtimeSubdir "target",
        [("/w", "target/release/_objs/"), ("/w/s", "target/release/_objs/s"), ("/o", "/o")]) := by
    decide +kernel
  obtain ⟨p, hp, heq⟩ := exists_ok_of_toOption_map hrun
  obtain ⟨hplacement, hunits⟩ := Prod.mk.inj heq
  refine ⟨p, hp, hplacement, fun dirs hdirs => ?_⟩
  rw [← hunits] at hdirs
  obtain ⟨u, hu, rfl⟩ := List.mem_map.mp hdirs
  exact ⟨u, hu, rfl, rfl⟩

/-- The projects below the run directory and outside of it do not share a place for their objects. -/
theorem Plan.objectDir_eq_iff_outsideRoot :
    ∃ (p : Plan) (u v : ResolvedUnit),
      outsideRoot.Opens outsideTree ∧
      (compose outsideTree outsideRoot ⟨"gcc"⟩ .standard).1 = .ok p ∧
      p.config.effectivePlacement.IsRelative ∧ u ∈ p.units ∧ v ∈ p.units ∧
      ((p.objectDir u).components = (p.objectDir v).components ↔
        u.descriptor.parent = v.descriptor.parent) ∧
      u.descriptor.parent ≠ v.descriptor.parent := by
  obtain ⟨p, hp, hplacement, hunits⟩ := exists_plan_outsideRoot
  have hrelative : p.config.effectivePlacement.IsRelative := by
    rw [hplacement]
    exact (by decide : (Path.ofString "target").isAbsolute = false)
  obtain ⟨u, hu, hdir, -⟩ := hunits ("/w", "target/release/_objs/") (by simp)
  obtain ⟨v, hv, hdir', -⟩ := hunits ("/o", "/o") (by simp)
  refine ⟨p, u, v, opens_outsideRoot, hp, hrelative, hu, hv,
    objectDir_eq_iff opens_outsideRoot hp hrelative hu hv, fun heq => ?_⟩
  rw [heq, hdir'] at hdir
  exact absurd hdir (by decide)

/-- The objects of the project below the run directory are in the tree of the runtime mode. -/
theorem Plan.directories_of_runtimeSubdir_outsideRoot :
    ∃ (p : Plan) (u : ResolvedUnit),
      outsideRoot.Opens outsideTree ∧
      (compose outsideTree outsideRoot ⟨"gcc"⟩ .standard).1 = .ok p ∧
      p.config.effectivePlacement = .runtimeSubdir "target" ∧ u ∈ p.units ∧
      p.targetDir u = (Path.ofString "target").joinText
        ((p.config.runtimeMode.map RuntimeMode.name).getD "default") ∧
      (p.objectDir u).text = "target/release/_objs/s" := by
  obtain ⟨p, hp, hplacement, hunits⟩ := exists_plan_outsideRoot
  obtain ⟨u, hu, -, hobjects⟩ := hunits ("/w/s", "target/release/_objs/s") (by simp)
  exact ⟨p, u, opens_outsideRoot, hp, hplacement, hu,
    (directories_of_runtimeSubdir opens_outsideRoot hp hplacement hu).1, hobjects⟩

/-- The objects of the project outside the run directory are not in the tree of the runtime mode. -/
theorem Plan.not_keepsObjects_outsideRoot :
    ∃ (p : Plan) (u : ResolvedUnit),
      outsideRoot.Opens outsideTree ∧
      (compose outsideTree outsideRoot ⟨"gcc"⟩ .standard).1 = .ok p ∧
      p.config.effectivePlacement = .runtimeSubdir "target" ∧ u ∈ p.units ∧
      ¬(Placement.objectTree "target" p.config.runtimeMode).components <+:
        (p.objectDir u).components := by
  obtain ⟨p, hp, hplacement, hunits⟩ := exists_plan_outsideRoot
  obtain ⟨u, hu, -, hobjects⟩ := hunits ("/o", "/o") (by simp)
  refine ⟨p, u, opens_outsideRoot, hp, hplacement, hu, fun hfront => ?_⟩
  rw [← Path.ofString_text (p.objectDir u), hobjects] at hfront
  -- the tree begins with a name, and the place of the objects at the root
  generalize p.config.runtimeMode = mode at hfront
  rcases mode with - | - | - <;> exact absurd hfront (by decide +kernel)

end BuildComposition
