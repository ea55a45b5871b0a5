import BuildComposition.Proofs.Compose.Course
import BuildComposition.Proofs.FileTree.Canonical
import BuildComposition.Proofs.Graph.Trails

/-!
# The lookup of the override

A run looks for its override twice, in two ways.  The choice of the defaults asks whether a file stands
at the path as it is written; the graph resolves the path step by step, which looks up a path for each
step, and then asks about the canonical path that this gives.  A path that is too long to be looked up as
it is written can have steps that all fit, and a path that fits can have a step that is too long.  Apart
from that the two ways agree, so that a run with an override never fails because its override is missing,
and evaluates it before everything else.

## Main definitions

* `FileTree.FileAt`: a path leads to a file, however long any path is

## Main results

* `FileTree.isFile_iff`, `FileTree.canonicalFile?_eq_some_iff`: the two ways to look for a file
* `evaluateOverride_notFound_iff`: when a graph does not find the override
* `notFound_of_malformedOverride`: what is missing when an override has failed because of a missing file
* `override_evaluated_first`: the override of a plan was evaluated before everything else and once
* `override_lookups`: what the choice of the defaults and the graph make of the same name
-/

namespace BuildComposition

namespace FileTree

variable {t : FileTree} {p q : Path} {l m : Location}

/-- The path leads to a file at a location, however long any path is. -/
def FileAt (t : FileTree) (p : Path) (l : Location) : Prop :=
  ∃ content, t.locate p = .ok l ∧ t.entry? l = some (.file content)

theorem FileAt.unique (h : t.FileAt p l) (h' : t.FileAt p m) : l = m := by
  obtain ⟨-, hl, -⟩ := h
  obtain ⟨-, hm, -⟩ := h'
  exact Except.ok.inj (hl.symm.trans hm)

/-- A file stands at a path if the path fits and leads to a file. -/
theorem isFile_iff : t.isFile p = true ↔ p.Fits ∧ ∃ l, t.FileAt p l := by
  unfold isFile find? lookup
  by_cases hfits : p.Fits
  · rw [if_pos hfits]
    constructor
    · intro h
      cases hl : t.locate p with
      | error e => simp [hl] at h
      | ok l =>
        simp only [hl] at h
        rcases settled_of_locate hl with hd | ⟨content, hf⟩
        · simp [hd] at h
        · exact ⟨hfits, l, content, hl, hf⟩
    · rintro ⟨-, l, content, hl, hf⟩
      simp only [hl, hf]
  · simp [hfits]

/-- A file that is reached from a directory was looked up under the path of its location. -/
theorem path_mem_askedAlong
    {follow : Location → List (List Char) → Except FileError Location}
    {asks : Location → List (List Char) → List Path}
    (hfollow : ∀ here ps, t.entry? here = some .directory → follow here ps = .ok l → l.path ∈ asks here ps)
    {content : Bytes} (hf : t.entry? l = some (.file content)) {here : Location}
    {ps : List (List Char)} (hhere : t.entry? here = some .directory)
    (h : t.walk follow here ps = .ok l) : l.path ∈ t.askedAlong asks here ps := by
  induction ps generalizing here with
  | nil =>
    rw [walk, Except.ok.injEq] at h
    rw [h, hf] at hhere
    cases hhere
  | cons piece rest ih =>
    rw [walk] at h
    rw [askedAlong]
    split at h
    · next hblank =>
      rw [if_pos hblank]
      exact ih hhere h
    next hblank =>
    rw [if_neg hblank]
    split at h
    · next hup =>
      rw [if_pos hup]
      exact ih (entry?_dropLast hhere) h
    next hup =>
    rw [if_neg hup, List.mem_cons]
    split at h
    · cases h
    split at h
    · cases h
    · next hd => exact .inr (List.mem_append_right _ (ih hd h))
    · split at h
      · rw [Except.ok.injEq] at h
        exact .inl (congrArg _ h.symm)
      · cases h
    · next target _ =>
      refine .inr (hfollow _ _ ?_ h)
      split
      · exact entry?_root t
      · exact hhere

/-- The canonical path of a file is the last of those that are looked up on the way to it. -/
theorem FileAt.path_mem_asked (h : t.FileAt p l) : l.path ∈ t.asked p := by
  obtain ⟨content, hl, hf⟩ := h
  unfold locate at hl
  unfold asked
  split at hl
  · cases hl
  next hnul =>
  rw [if_neg hnul]
  split at hl
  · cases hl
  have hthrough : ∀ links here ps, t.entry? here = some .directory →
      t.resolve links here ps = .ok l → l.path ∈ t.askedThrough links here ps := by
    intro links
    induction links with
    | zero =>
      intro _ _ _ h
      cases h
    | succ links ih =>
      intro here ps hhere h
      exact path_mem_askedAlong ih hf hhere h
  refine hthrough _ _ _ ?_ hl
  split
  · exact entry?_root t
  · exact t.working_directory

/-- A path has a canonical path of a file if it leads to a file and no step on the way is too long. -/
theorem canonicalFile?_eq_some_iff :
    t.canonicalFile? p = some q ↔ t.Passes p ∧ ∃ l, t.FileAt p l ∧ q = l.path := by
  constructor
  · intro h
    obtain ⟨-, -, -, -, hfits⟩ := exists_file_of_canonicalFile? h
    unfold canonicalFile? at h
    cases hc : t.canonicalize p with
    | error e => simp [hc] at h
    | ok r =>
      obtain ⟨hpasses, l, hl, rfl⟩ := canonicalize_eq_ok_iff.mp hc
      simp only [hc] at h
      split at h
      · next hfile =>
        cases h
        obtain ⟨-, m, content, hm, hf⟩ := isFile_iff.mp hfile
        -- the canonical path leads back to its own location
        rw [locate_path (settled_of_locate hl), Except.ok.injEq] at hm
        exact ⟨hpasses, l, ⟨content, hl, hm ▸ hf⟩, rfl⟩
      · cases h
  · rintro ⟨hpasses, l, hat, rfl⟩
    have hfits := hpasses _ hat.path_mem_asked
    obtain ⟨content, hl, hf⟩ := hat
    have hfile : t.isFile l.path = true :=
      isFile_iff.mpr ⟨hfits, l, content, locate_path (.inr ⟨content, hf⟩), hf⟩
    simp [canonicalFile?, canonicalize_eq_ok_iff.mpr ⟨hpasses, l, hl, rfl⟩, hfile]

theorem exists_canonicalFile?_iff :
    (∃ q, t.canonicalFile? p = some q) ↔ t.Passes p ∧ ∃ l, t.FileAt p l := by
  constructor
  · rintro ⟨q, hq⟩
    obtain ⟨hpasses, l, hl, -⟩ := canonicalFile?_eq_some_iff.mp hq
    exact ⟨hpasses, l, hl⟩
  · rintro ⟨hpasses, l, hl⟩
    exact ⟨l.path, canonicalFile?_eq_some_iff.mpr ⟨hpasses, l, hl, rfl⟩⟩

/-- The two ways to look for a file agree exactly if the path leads to no file, or it fits together with
all steps on the way, or neither fits. -/
theorem isFile_iff_canonicalFile? :
    (t.isFile p = true ↔ ∃ q, t.canonicalFile? p = some q) ↔
      ((∃ l, t.FileAt p l) → (p.Fits ↔ t.Passes p)) := by
  rw [isFile_iff, exists_canonicalFile?_iff]
  tauto

end FileTree

/-! ## The lookup of a graph -/

namespace Graph

variable {μ : Type} {g : Graph μ}

/-- Nothing is found for the reference that an error is about.  It is the reference of the call, or the
chain shows that the descriptor of the call has led to it. -/
theorem Follows.notFound_cases {kind : DescriptorKind} {index : Nat} {file : String}
    {s t : GraphState μ} {es : List Evaluation} {reference : String} {resolved : Path}
    {position : Nat} {chain : List String}
    (h : g.Follows [] (.one kind index file) s es
      (.error (.notFound reference resolved position chain)) t) :
    g.evaluator.find? resolved = none ∧ resolved = g.resolvePath reference ∧
      (reference = file ∨ ∃ more, chain = g.chain [] ++ file :: more) := by
  obtain ⟨trail, missing, position', htrail, hfails, -⟩ := h.exists_trail rfl
  rw [List.nil_append] at hfails
  generalize herror : GraphError.notFound reference resolved position chain = e at hfails
  cases hfails with
  | failed => cases herror
  | refused h =>
    cases h with
    | cycle | tooDeep => cases herror
    | notFound hmissing =>
      simp only [GraphError.notFound.injEq] at herror
      obtain ⟨rfl, rfl, -, rfl⟩ := herror
      refine ⟨hmissing, rfl, ?_⟩
      cases htrail with
      | here hmem =>
        simp only [Task.entries, List.mem_singleton, Prod.mk.injEq] at hmem
        exact .inl hmem.1
      | @through _ e _ rest _ hmem =>
        simp only [Task.entries, List.mem_singleton, Prod.mk.injEq] at hmem
        refine .inr ⟨rest.map (·.reference), ?_⟩
        simp [chain, links, Evaluation.link, hmem.1]

/-- The call for the override does not find it. -/
def Misses (g : Graph μ) (file : String) (s : GraphState μ) : Prop :=
  ∃ t, (g.evaluateOverride file).run s =
    .error (.notFound file (g.resolvePath file) 1 (g.chain [])) t

/-- The override is missed exactly if its path leads nowhere.  What is missing further down is told apart
by its reference. -/
theorem misses_iff {file : String} {s : GraphState μ} :
    g.Misses file s ↔ ¬∃ descriptor, g.Leads file descriptor := by
  constructor
  · rintro ⟨t, hrun⟩ ⟨descriptor, hleads⟩
    obtain ⟨es, hfollows⟩ := follows_of_call_error (c := .override file) hrun
    obtain ⟨hmissing, -⟩ := hfollows.notFound_cases
    rw [hleads] at hmissing
    cases hmissing
  · intro h
    have hmissing : g.evaluator.find? (g.resolvePath file) = none := by
      rw [Option.eq_none_iff_forall_ne_some]
      exact fun descriptor hleads => h ⟨descriptor, hleads⟩
    exact ⟨s, run_eq_of_follows (c := .override file) (.refused (.notFound hmissing))⟩

end Graph

theorem isOverride_resolve (tree : FileTree) (runDir : Path) (file : String) :
    (DefaultsSource.resolve tree runDir file).isOverride = tree.isFile (runDir.joinText file) := by
  unfold DefaultsSource.resolve DefaultsSource.candidate
  cases hfile : tree.isFile (runDir.joinText file) <;> rfl

section

variable {tree : FileTree} {root : Root} {toolset : Toolset} {layout : Layout} {options : Options}

theorem fileAt_of_resolve {runDir path : Path} {file : String}
    (h : DefaultsSource.resolve tree runDir file = .localOverride path) :
    ∃ l, tree.FileAt path l := by
  have hoverride := isOverride_resolve tree runDir file
  rw [h, ← eq_joinText_of_resolve h] at hoverride
  exact (FileTree.isFile_iff.mp hoverride.symm).2

/-- A run fails in its override only as the override itself does. -/
theorem Course.of_malformedOverride {g : Graph Script.Memory} {spec : RootSpec}
    {source : DefaultsSource} {s t : GraphState Script.Memory} {es fs : List Evaluation} {path : Path}
    {e : GraphError}
    (h : Course g spec options s source es fs (.error (.malformedOverride path e)) t) :
    source = .localOverride path ∧
      g.Follows [] (.one .override 1 spec.overrideFile) s es (.error e) t := by
  cases h with
  | overrideFailed h => exact ⟨rfl, h⟩

/-- Where a run has failed because a file is missing that its override needs, the override itself leads
to a file.  Unless a step on the way to it is too long, what is missing is not the override but something
that was required after the override had run. -/
theorem notFound_of_malformedOverride {path resolved : Path} {reference : String} {position : Nat}
    {chain : List String}
    (h : (compose tree root toolset options layout).1 =
      .error (.malformedOverride path (.notFound reference resolved position chain))) :
    ∃ spec l, (root.read tree toolset layout).1 = .ok spec ∧
      path = (root.graph tree options).resolvePath spec.overrideFile ∧ tree.FileAt path l ∧
      (tree.Passes path → reference ≠ spec.overrideFile ∧
        (tree.FileAt resolved l → ¬tree.Passes resolved) ∧
        ∃ more, chain = root.label :: spec.overrideFile :: more) := by
  rcases hread : root.read tree toolset layout with ⟨_ | spec, memory, session⟩
  · simp only [compose, composition, hread] at h
    cases h
  have hspec : (root.read tree toolset layout).1 = .ok spec := by rw [hread]
  obtain ⟨es, fs, outcome, t, hcourse, hrun⟩ := compose_course hspec options
  rw [hrun] at h
  cases outcome with
  | ok units => cases h
  | error e =>
    cases h
    obtain ⟨hsource, hfollows⟩ := hcourse.of_malformedOverride
    obtain ⟨hmissing, hresolved, hcases⟩ := hfollows.notFound_cases
    obtain ⟨l, hl⟩ := fileAt_of_resolve hsource
    have hpath : path = (root.graph tree options).resolvePath spec.overrideFile := by
      rw [resolvePath_graph]
      exact eq_joinText_of_resolve hsource
    refine ⟨spec, l, rfl, hpath, hl, fun hpasses => ?_⟩
    have hnowhere : tree.FileAt resolved l → ¬tree.Passes resolved := by
      intro hat hresolves
      obtain ⟨q, hq⟩ := FileTree.exists_canonicalFile?_iff.mpr ⟨hresolves, l, hat⟩
      exact Option.some_ne_none q (hq.symm.trans hmissing)
    have hne : reference ≠ spec.overrideFile := by
      rintro rfl
      rw [hresolved, ← hpath] at hnowhere
      exact hnowhere hl hpasses
    obtain ⟨more, hchain⟩ := hcases.resolve_left hne
    rw [chain_graph] at hchain
    exact ⟨hne, hnowhere, more, hchain⟩

/-- The override of a plan was evaluated before everything else, and it was evaluated once. -/
theorem override_evaluated_first {plan : Plan} {path : Path}
    (h : (compose tree root toolset options layout).1 = .ok plan)
    (hpath : plan.defaults = .localOverride path) :
    ∃ spec e rest, (root.read tree toolset layout).1 = .ok spec ∧
      evaluations (compose tree root toolset options layout).2.journal = e :: rest ∧
      e.reference = spec.overrideFile ∧ e.kind = .override ∧ e.depth = 0 ∧
      tree.canonicalFile? path = some e.descriptor ∧
      ∀ f ∈ rest, f.kind = .project ∧ f.descriptor ≠ e.descriptor := by
  obtain ⟨spec, hspec, hdefaults, hyields⟩ := yields_of_plan h
  obtain ⟨visited, hseries⟩ := hyields.series
  have hnodup := hseries.nodup
  have hjoin : path = root.runDir.joinText spec.overrideFile :=
    eq_joinText_of_resolve (hdefaults.symm.trans hpath)
  rw [hpath] at hyields
  generalize plan.units = units at hyields
  generalize evaluations (compose tree root toolset options layout).2.journal = es at hyields hnodup ⊢
  cases hyields with
  | override hs hfirst hu hrest =>
    obtain ⟨link, requests, below, _, href, ha, rfl, hbelow⟩ := hfirst.override_cases hs
    refine ⟨spec, _, _, hspec, rfl, href, rfl, rfl, ?_, ?_⟩
    · have hleads := ha.leads
      rw [href, leads_graph_iff, ← hjoin] at hleads
      exact hleads
    · intro f hf
      constructor
      · -- what the override has queued and what the root requires are projects
        have hproject : f.isProject = true :=
          (List.mem_append.mp hf).elim (hbelow.isProject rfl f) (hrest.isProject rfl f)
        exact beq_iff_eq.mp hproject
      · rw [List.cons_append, List.map_cons, List.nodup_cons] at hnodup
        intro heq
        exact hnodup.1 (heq ▸ List.mem_map_of_mem hf)

end

/-! ## The two lookups of a run -/

/-- What the choice of the defaults and the graph of a run make of the same name. -/
structure OverrideLookups (tree : FileTree) (root : Root) (toolset : Toolset) (options : Options)
    (layout : Layout) : Prop where
  /-- The path of the override that is chosen is the one that the graph looks for. -/
  path_eq : ∀ file path, DefaultsSource.resolve tree root.runDir file = .localOverride path →
    path = (root.graph tree options).resolvePath file
  chosen_iff : ∀ file, (DefaultsSource.resolve tree root.runDir file).isOverride = true ↔
    ((root.graph tree options).resolvePath file).Fits ∧
      ∃ l, tree.FileAt ((root.graph tree options).resolvePath file) l
  missed_iff : ∀ file s, ¬(root.graph tree options).Misses file s ↔
    tree.Passes ((root.graph tree options).resolvePath file) ∧
      ∃ l, tree.FileAt ((root.graph tree options).resolvePath file) l
  /-- The override is chosen exactly if the graph finds it, unless its path leads to a file and fits with
  a step on the way that does not, or the other way round. -/
  agree_iff : ∀ file s,
    ((DefaultsSource.resolve tree root.runDir file).isOverride = true ↔
      ¬(root.graph tree options).Misses file s) ↔
    ((∃ l, tree.FileAt ((root.graph tree options).resolvePath file) l) →
      (((root.graph tree options).resolvePath file).Fits ↔
        tree.Passes ((root.graph tree options).resolvePath file)))
  /-- What an override has failed for is not the override itself. -/
  missing : ∀ path reference resolved position chain,
    (compose tree root toolset options layout).1 =
      .error (.malformedOverride path (.notFound reference resolved position chain)) →
    ∃ spec l, (root.read tree toolset layout).1 = .ok spec ∧
      path = (root.graph tree options).resolvePath spec.overrideFile ∧ tree.FileAt path l ∧
      (tree.Passes path → reference ≠ spec.overrideFile ∧
        (tree.FileAt resolved l → ¬tree.Passes resolved) ∧
        ∃ more, chain = root.label :: spec.overrideFile :: more)
  /-- The override of a plan was evaluated first, as an override, and only once. -/
  evaluated : ∀ plan path, (compose tree root toolset options layout).1 = .ok plan →
    plan.defaults = .localOverride path →
    ∃ spec e rest, (root.read tree toolset layout).1 = .ok spec ∧
      evaluations (compose tree root toolset options layout).2.journal = e :: rest ∧
      e.reference = spec.overrideFile ∧ e.kind = .override ∧ e.depth = 0 ∧
      tree.canonicalFile? path = some e.descriptor ∧
      ∀ f ∈ rest, f.kind = .project ∧ f.descriptor ≠ e.descriptor

/-- The choice of the defaults and the graph look for the same path, and they agree on whether a file is
there unless either this path or a step on the way is too long, and not both.  An override that is chosen
is otherwise found by the graph, and evaluated before everything else and once. -/
theorem override_lookups (tree : FileTree) (root : Root) (toolset : Toolset) (options : Options)
    (layout : Layout) : OverrideLookups tree root toolset options layout where
  path_eq file path h := by
    rw [resolvePath_graph]
    exact eq_joinText_of_resolve h
  chosen_iff file := by
    rw [isOverride_resolve, resolvePath_graph, FileTree.isFile_iff]
  missed_iff file s := by
    rw [Graph.misses_iff, not_not, resolvePath_graph, ← FileTree.exists_canonicalFile?_iff]
    simp only [leads_graph_iff]
  agree_iff file s := by
    rw [isOverride_resolve, Graph.misses_iff, not_not, resolvePath_graph,
      ← FileTree.isFile_iff_canonicalFile?]
    simp only [leads_graph_iff]
  missing _ _ _ _ _ h := notFound_of_malformedOverride h
  evaluated _ _ h hpath := override_evaluated_first h hpath

/-! ## A spelling that is too long -/

/-- A name behind dots that name nothing. -/
def dotted (count : Nat) (name : String) : String :=
  String.ofList (List.replicate count ['.', '/']).flatten ++ name

theorem toList_dotted (count : Nat) (name : String) :
    (dotted count name).toList = (List.replicate count ['.', '/']).flatten ++ name.toList := by
  rw [dotted, String.toList_append, String.toList_ofList]

theorem pieces_dots (count : Nat) (cs : List Char) :
    Path.pieces ((List.replicate count ['.', '/']).flatten ++ cs) =
      List.replicate count ['.'] ++ Path.pieces cs := by
  induction count with
  | zero => rfl
  | succ count ih =>
    have hdot : ∀ rest, Path.pieces ('.' :: '/' :: rest) = ['.'] :: Path.pieces rest := by
      simp [Path.pieces]
    rw [List.replicate_succ, List.flatten_cons, List.append_assoc]
    exact (hdot _).trans (congrArg (['.'] :: ·) ih)

theorem resolve_dots (t : FileTree) (links count : Nat) (here : Location)
    (pieces : List (List Char)) :
    t.resolve (links + 1) here (List.replicate count ['.'] ++ pieces) =
      t.resolve (links + 1) here pieces := by
  induction count with
  | zero => rfl
  | succ count ih =>
    rw [← ih]
    show t.walk _ here (['.'] :: (List.replicate count ['.'] ++ pieces)) = _
    rw [FileTree.walk, if_pos (show Path.blankPiece ['.'] = true from rfl)]
    rfl

theorem askedThrough_dots (t : FileTree) (links count : Nat) (here : Location)
    (pieces : List (List Char)) :
    t.askedThrough (links + 1) here (List.replicate count ['.'] ++ pieces) =
      t.askedThrough (links + 1) here pieces := by
  induction count with
  | zero => rfl
  | succ count ih =>
    rw [← ih]
    show t.askedAlong _ here (['.'] :: (List.replicate count ['.'] ++ pieces)) = _
    rw [FileTree.askedAlong, if_pos (show Path.blankPiece ['.'] = true from rfl)]
    rfl

/-- The number of octets of a name behind dots. -/
theorem utf8ByteSize_dotted (count : Nat) (name : String) :
    (dotted count name).utf8ByteSize = 2 * count + name.utf8ByteSize := by
  unfold dotted
  rw [String.utf8ByteSize_append]
  induction count with
  | zero => simp
  | succ count ih =>
    rw [List.replicate_succ, List.flatten_cons, String.ofList_append, String.utf8ByteSize_append]
    have hdot : (String.ofList ['.', '/']).utf8ByteSize = 2 := by decide
    omega

/-- Names below the root are followed from the root. -/
theorem locate_slash (t : FileTree) {cs : List Char} (h : '\x00' ∉ cs) :
    t.locate ⟨'/' :: cs⟩ = t.resolve (FileTree.maxLinks + 1) [] (Path.pieces cs) := by
  have hnul : ('/' :: cs).contains '\x00' = false := by simpa using h
  have hpieces : Path.pieces ('/' :: cs) = [] :: Path.pieces cs := by simp [Path.pieces]
  have habsolute : Path.isAbsolute ⟨'/' :: cs⟩ = true := rfl
  rw [FileTree.locate, hnul, if_neg (by simp), if_neg (by simp), habsolute, if_pos rfl, hpieces]
  show t.walk _ [] ([] :: Path.pieces cs) = _
  rw [FileTree.walk, if_pos (show Path.blankPiece [] = true from rfl)]
  rfl

theorem asked_slash (t : FileTree) {cs : List Char} (h : '\x00' ∉ cs) :
    t.asked ⟨'/' :: cs⟩ = t.askedThrough (FileTree.maxLinks + 1) [] (Path.pieces cs) := by
  have hnul : ('/' :: cs).contains '\x00' = false := by simpa using h
  have hpieces : Path.pieces ('/' :: cs) = [] :: Path.pieces cs := by simp [Path.pieces]
  have habsolute : Path.isAbsolute ⟨'/' :: cs⟩ = true := rfl
  rw [FileTree.asked, hnul, if_neg (by simp), habsolute, if_pos rfl, hpieces]
  show t.askedAlong _ [] ([] :: Path.pieces cs) = _
  rw [FileTree.askedAlong, if_pos (show Path.blankPiece [] = true from rfl)]
  rfl

/-- Dots in front of a name do not change what is looked up on the way from the top of a tree. -/
theorem asked_dotted (t : FileTree) (count : Nat) {name : String} (h : '\x00' ∉ name.toList) :
    t.asked ⟨'/' :: (dotted count name).toList⟩ = t.asked ⟨'/' :: name.toList⟩ := by
  have hdotted : '\x00' ∉ (dotted count name).toList := by
    simpa [toList_dotted] using h
  rw [asked_slash t h, asked_slash t hdotted, toList_dotted, pieces_dots, askedThrough_dots]

/-- Dots in front of a name do not change where it leads from the top of a tree. -/
theorem locate_dotted (t : FileTree) (count : Nat) {name : String} (h : '\x00' ∉ name.toList) :
    t.locate ⟨'/' :: (dotted count name).toList⟩ = t.locate ⟨'/' :: name.toList⟩ := by
  have hdotted : '\x00' ∉ (dotted count name).toList := by
    simpa [toList_dotted] using h
  rw [locate_slash t h, locate_slash t hdotted, toList_dotted, pieces_dots, resolve_dots]

/-- A name behind dots is joined with the top of a tree. -/
theorem joinText_dotted (count : Nat) (name : String) :
    Path.joinText ⟨['/']⟩ (dotted (count + 1) name) = ⟨'/' :: (dotted (count + 1) name).toList⟩ := by
  have hrelative : (Path.ofString (dotted (count + 1) name)).isAbsolute = false := by
    rw [Path.ofString, toList_dotted, List.replicate_succ, List.flatten_cons]
    rfl
  rw [Path.joinText, Path.join, hrelative]
  rfl

/-- A tree with an override at its top. -/
def overrideTree : FileTree := FileTree.empty.putEntry [standardOverride.toList] (.file [])

/-- Behind enough dots the override is not chosen, although the graph finds it. -/
theorem dotted_override_overrideTree :
    (DefaultsSource.resolve overrideTree ⟨['/']⟩ (dotted 2100 standardOverride)).isOverride = false ∧
      ¬((topRoot .empty).graph overrideTree .standard).Misses (dotted 2100 standardOverride)
        ((topRoot .empty).ready overrideTree ⟨"gcc"⟩ .empty) := by
  have hjoin := joinText_dotted 2099 standardOverride
  have hnul : '\x00' ∉ standardOverride.toList := by decide
  have hlocate := locate_dotted overrideTree 2100 hnul
  have hfile : overrideTree.FileAt (Path.joinText ⟨['/']⟩ (dotted 2100 standardOverride))
      [standardOverride.toList] := by
    rw [hjoin]
    exact ⟨[], by rw [hlocate]; decide, by decide⟩
  constructor
  · -- the path as it is written has more than four thousand octets
    rw [isOverride_resolve, Bool.eq_false_iff, ne_eq, FileTree.isFile_iff, hjoin]
    rintro ⟨hfits, -⟩
    have hsize : (Path.mk ('/' :: (dotted 2100 standardOverride).toList)).text.utf8ByteSize =
        1 + (2 * 2100 + standardOverride.utf8ByteSize) := by
      rw [Path.text, ← List.singleton_append, String.ofList_append, String.utf8ByteSize_append,
        String.ofList_toList, utf8ByteSize_dotted]
      rfl
    rw [Path.Fits, hsize, FileTree.pathLimit] at hfits
    omega
  · rw [Graph.misses_iff, not_not]
    simp only [leads_graph_iff]
    refine FileTree.exists_canonicalFile?_iff.mpr ⟨?_, _, hfile⟩
    have hshort : overrideTree.Passes (Path.joinText ⟨['/']⟩ (dotted 2100 standardOverride)) := by
      rw [hjoin, FileTree.Passes, asked_dotted overrideTree 2100 hnul]
      decide
    exact hshort

end BuildComposition
