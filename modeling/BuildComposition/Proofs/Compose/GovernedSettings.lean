import BuildComposition.Proofs.Compose.Course
import BuildComposition.Proofs.Lists

/-!
# Who writes the governed settings

Runtime mode, placement and brief output have one source in a run.  Under built-in defaults they are
written once, before the first descriptor runs, and stay as they are.  Under an override they are
unset until its own script starts, only requests that take effect while that script runs change them,
and nothing that comes later does: neither what the override requires, nor the references of the root,
nor functions of the override that other descriptors call.

The settings at any moment of a run are those that the journal up to this moment makes, so that what
holds at every moment is said about every prefix of the journal.

## Main definitions

* `settingsAfter`: the settings that the events of a journal make
* `GovernedByBuiltin`, `GovernedByOverride`: the governed settings along a run

## Main results

* `Graph.Follows.continues`: projects do not write governed settings
* `Graph.Follows.journal_override`: where an override writes them
* `Course.governedByBuiltin`, `Course.overrides`: what a run leaves in its journal
-/

namespace BuildComposition

/-! ## The governed settings -/

/-- The values of the settings that a source of defaults governs. -/
structure GovernedSettings where
  runtimeMode : Option RuntimeMode
  placement : Option Placement
  showBrief : Bool
  deriving DecidableEq, Repr

/-- No source of defaults has written yet. -/
def GovernedSettings.unset : GovernedSettings := ⟨none, none, false⟩

/-- The governed ones among the settings. -/
def Config.governed (c : Config) : GovernedSettings := ⟨c.runtimeMode, c.placement, c.showBrief⟩

/-- The governed settings that built-in defaults make. -/
def BuiltinDefaults.governed (d : BuiltinDefaults) : GovernedSettings :=
  ⟨some d.runtimeMode, some d.placement, true⟩

/-- The settings that the events of a journal make. -/
def settingsAfter (journal : List Event) : Config :=
  Config.empty.applyAll (journal.filterMap Event.change?)

theorem governed_apply {c : Change} (h : c.isGoverned = false) (s : Config) :
    (s.apply c).governed = s.governed := by
  cases c <;> first | rfl | cases h

theorem governed_applyAll_changes (d : BuiltinDefaults) (s : Config) :
    (s.applyAll d.changes).governed = d.governed := rfl

theorem settingsAfter_append (journal events : List Event) :
    settingsAfter (journal ++ events) =
      (settingsAfter journal).applyAll (events.filterMap Event.change?) := by
  rw [settingsAfter, List.filterMap_append, Config.applyAll_append]
  rfl

theorem governed_applyAll {changes : List Change} (h : ∀ c ∈ changes, c.isGoverned = false)
    (s : Config) : (s.applyAll changes).governed = s.governed := by
  induction changes generalizing s with
  | nil => rfl
  | cons c changes ih =>
    rw [Config.applyAll_cons, ih (fun c' hc' => h c' (List.mem_cons_of_mem c hc')),
      governed_apply (h c (by simp))]

/-- Events that are not governed keep the governed settings. -/
theorem governed_settingsAfter_append {events : List Event}
    (h : ∀ e ∈ events, e.isGoverned = false) (journal : List Event) :
    (settingsAfter (journal ++ events)).governed = (settingsAfter journal).governed := by
  rw [settingsAfter_append]
  refine governed_applyAll (fun c hc => ?_) _
  obtain ⟨e, he, hchange⟩ := List.mem_filterMap.mp hc
  have hfalse := h e he
  rw [Event.isGoverned, hchange] at hfalse
  exact hfalse

theorem governed_settingsAfter_eq_unset {events : List Event}
    (h : ∀ e ∈ events, e.isGoverned = false) :
    (settingsAfter events).governed = .unset := by
  have h := governed_settingsAfter_append h []
  rwa [List.nil_append] at h

/-- After built-in defaults were written, their values are those of the governed settings. -/
theorem governed_settingsAfter_changed (d : BuiltinDefaults) (journal : List Event) :
    (settingsAfter (journal ++ d.changes.map .changed)).governed = d.governed := by
  rw [settingsAfter_append]
  exact governed_applyAll_changes d _

/-! ## What the events of a task write -/

/-- The event writes no governed setting and starts no override. -/
def Event.isOrdinary (e : Event) : Bool := !e.isGoverned && e != .opened .override

theorem Event.isOrdinary_of_isPlain {e : Event} (h : e.isPlain = true) : e.isOrdinary = true := by
  cases e with
  | changed c => simpa [isOrdinary, isGoverned, change?, isPlain] using h
  | evaluating | opened | performed | closed => cases h
  | _ => rfl

theorem Event.isGoverned_of_isOrdinary {e : Event} (h : e.isOrdinary = true) :
    e.isGoverned = false := by
  simp only [isOrdinary, Bool.and_eq_true, Bool.not_eq_true'] at h
  exact h.1

theorem Event.ne_opened_of_isOrdinary {e : Event} (h : e.isOrdinary = true) :
    e ≠ .opened .override := by
  rintro rfl
  cases h

/-- A project may not write governed settings. -/
theorem Event.Permitted.isOrdinary {e : Event} (h : e.Permitted .project) :
    e.isOrdinary = true := by
  obtain ⟨r, x, rfl, hgov⟩ := h
  cases hg : (Event.performed r x).isGoverned with
  | true => cases (hgov hg).2
  | false => simp [Event.isOrdinary, hg]

theorem GraphState.continues_descend {μ : Type} (s : GraphState μ) (reference : String)
    (queue : List String) :
    s.session.Continues Event.isOrdinary (s.descend reference queue).session := by
  obtain ⟨noted, hj, hd⟩ := s.journal_descend reference queue
  refine ⟨noted, hj, fun e he => ?_⟩
  obtain ⟨_, rfl⟩ := hd e he
  rfl

/-- What is noted where an override starts. -/
def opening (reference : String) (descriptor : Path) (depth : Nat) : List Event :=
  [.evaluating reference descriptor depth, .opened .override]

/-- The session `t` continues `s` with the script of an override, which leaves the events of `chunk`, and
with ordinary events after it. -/
def Session.Overrides (reference : String) (descriptor : Path) (depth : Nat) (chunk : List Event)
    (s t : Session) : Prop :=
  (∀ e ∈ chunk, e.Permitted .override) ∧
    ∃ after, t.journal = s.journal ++ opening reference descriptor depth ++ chunk ++ .closed :: after ∧
      ∀ e ∈ after, e.isOrdinary = true

theorem Session.Overrides.trans {reference : String} {descriptor : Path} {depth : Nat}
    {chunk : List Event} {s t u : Session} (h : Overrides reference descriptor depth chunk s t)
    (h' : t.Continues Event.isOrdinary u) : Overrides reference descriptor depth chunk s u := by
  obtain ⟨hchunk, after, hj, ho⟩ := h
  obtain ⟨more, hj', ho'⟩ := h'
  refine ⟨hchunk, after ++ more, ?_, fun e he => ?_⟩
  · rw [hj', hj]
    simp
  · exact (List.mem_append.mp he).elim (ho e) (ho' e)

namespace Graph

variable {μ : Type} {g : Graph μ}

theorem Enters.continues {depth : Nat} {link : Link} {s t : GraphState μ} {requests : List Request}
    {result : Except ScriptError Frame} (h : g.Enters .project depth link s requests result t) :
    s.session.Continues Event.isOrdinary t.session := by
  obtain ⟨chunk, hj, -, hp⟩ := h.journal_eq
  refine ⟨_, hj, fun e he => ?_⟩
  simp only [List.mem_cons, List.mem_append, List.not_mem_nil, or_false] at he
  rcases he with rfl | rfl | he | rfl
  · rfl
  · rfl
  · exact (hp e he).isOrdinary
  · rfl

namespace Follows

variable {below : List Link} {task : Task} {s t : GraphState μ} {es : List Evaluation}
  {outcome : Except GraphError (List ResolvedUnit)}

/-- Projects do not write governed settings, whatever their scripts do. -/
theorem continues (h : g.Follows below task s es outcome t) (hkind : task.kind = .project) :
    s.session.Continues Event.isOrdinary t.session := by
  induction h with
  | refused | nil => exact .refl _
  | skipped => exact .note _ rfl rfl
  | failed _ _ hr =>
    cases hkind
    exact hr.continues
  | evaluated _ _ hr _ ih =>
    cases hkind
    exact (hr.continues.trans (GraphState.continues_descend ..)).trans (ih rfl)
  | cons _ _ ih ih' => exact (ih rfl).trans (ih' rfl)
  | stop _ ih => exact ih rfl

/-- An override that nothing was visited before runs first of all, or is refused. -/
theorem journal_override {position : Nat} {reference : String}
    (h : g.Follows below (.one .override position reference) s es outcome t)
    (hs : s.visited = []) :
    (t = s ∧ ∃ e, outcome = .error e) ∨
      ∃ descriptor chunk, g.Leads reference descriptor ∧
        Session.Overrides reference descriptor below.length chunk s.session t.session := by
  cases h with
  | refused => exact .inl ⟨rfl, _, rfl⟩
  | skipped _ hv => simp [hs] at hv -- nothing was visited before
  | @failed _ _ _ link _ _ _ _ ha _ hr =>
    obtain ⟨chunk, hj, -, hp⟩ := hr.journal_eq
    refine .inr ⟨link.descriptor, chunk, ha.leads, hp, [], ?_, by simp⟩
    simp [hj, opening]
  | @evaluated _ _ _ link _ _ frame t _ _ _ ha _ hr h =>
    obtain ⟨chunk, hj, -, hp⟩ := hr.journal_eq
    have hran : Session.Overrides link.reference link.descriptor below.length chunk s.session
        t.session := ⟨hp, [], by simp [hj, opening], by simp⟩
    have hqueue := (t.continues_descend link.reference frame.required).trans (h.continues rfl)
    exact .inr ⟨link.descriptor, chunk, ha.leads, hran.trans hqueue⟩

end Follows

end Graph

/-! ## The governed settings along a run -/

/-- Under built-in defaults the governed settings are unset until their values are written, and have
these values from then on. -/
structure GovernedByBuiltin (defaults : BuiltinDefaults) (journal before after : List Event) :
    Prop where
  journal_eq : journal = before ++ defaults.changes.map .changed ++ after
  /-- No descriptor has started before. -/
  prepared : ∀ e ∈ before, e.isPlain = true
  /-- Nothing else writes them. -/
  ungoverned : ∀ e ∈ before ++ after, e.isGoverned = false
  unset : ∀ part, part <+: before → (settingsAfter part).governed = .unset
  kept : ∀ part, part <+: after →
    (settingsAfter (before ++ defaults.changes.map .changed ++ part)).governed = defaults.governed

/-- Under an override the governed settings are unset until its script starts, change only with
requests that take effect while it runs, and stay as it leaves them.  The part of the journal in which
it runs is `chunk`. -/
structure GovernedByOverride (file : String) (descriptor : Path)
    (journal before chunk after : List Event) : Prop where
  journal_eq : journal = before ++ opening file descriptor 0 ++ chunk ++ .closed :: after
  /-- No descriptor has started before. -/
  prepared : ∀ e ∈ before, e.isPlain = true
  /-- Nothing else writes them. -/
  ungoverned : ∀ e ∈ before ++ after, e.isGoverned = false
  /-- No other script runs as an override. -/
  opened_once : .opened .override ∉ before ++ chunk ++ after
  unset : ∀ part, part <+: before ++ opening file descriptor 0 →
    (settingsAfter part).governed = .unset
  /-- While the script runs, all that happens are its requests. -/
  performed : ∀ e ∈ chunk, ∃ r x, e = .performed r x
  changed_in_chunk : ∀ left e right, journal = left ++ e :: right →
    (settingsAfter (left ++ [e])).governed ≠ (settingsAfter left).governed →
    ∃ done rest r x, chunk = done ++ e :: rest ∧ left = before ++ opening file descriptor 0 ++ done ∧
      e = .performed r x ∧ r.operation.isGoverned = true
  kept : ∀ part, part <+: after →
    (settingsAfter (before ++ opening file descriptor 0 ++ chunk ++ .closed :: part)).governed =
      (settingsAfter (before ++ opening file descriptor 0 ++ chunk)).governed

theorem isGoverned_of_part {events part : List Event}
    (h : ∀ e ∈ events, e.isOrdinary = true) (hpart : part <+: events) :
    ∀ e ∈ part, e.isGoverned = false := fun e he =>
  Event.isGoverned_of_isOrdinary (h e (hpart.subset he))

theorem isOrdinary_of_mem_append {before after : List Event}
    (hbefore : ∀ e ∈ before, e.isPlain = true) (hafter : ∀ e ∈ after, e.isOrdinary = true) :
    ∀ e ∈ before ++ after, e.isOrdinary = true := by
  intro e he
  rcases List.mem_append.mp he with he | he
  · exact Event.isOrdinary_of_isPlain (hbefore e he)
  · exact hafter e he

theorem governedByBuiltin_of_ordinary (defaults : BuiltinDefaults) {before after : List Event}
    (hbefore : ∀ e ∈ before, e.isPlain = true) (hafter : ∀ e ∈ after, e.isOrdinary = true) :
    GovernedByBuiltin defaults (before ++ defaults.changes.map .changed ++ after) before after := by
  have hordinary := isOrdinary_of_mem_append hbefore hafter
  refine
    { journal_eq := rfl
      prepared := hbefore
      ungoverned := isGoverned_of_part hordinary List.prefix_rfl
      unset := fun part hpart => ?_
      kept := fun part hpart => ?_ }
  · exact governed_settingsAfter_eq_unset
      (isGoverned_of_part hordinary (hpart.trans (List.prefix_append before after)))
  · rw [governed_settingsAfter_append (isGoverned_of_part hafter hpart),
      governed_settingsAfter_changed]

theorem governedByOverride_of_ordinary (file : String) (descriptor : Path)
    {before chunk after : List Event} (hbefore : ∀ e ∈ before, e.isPlain = true)
    (hchunk : ∀ e ∈ chunk, e.Permitted .override) (hafter : ∀ e ∈ after, e.isOrdinary = true) :
    GovernedByOverride file descriptor
      (before ++ opening file descriptor 0 ++ chunk ++ .closed :: after) before chunk after := by
  have hordinary := isOrdinary_of_mem_append hbefore hafter
  have hfirst : ∀ e ∈ before ++ opening file descriptor 0, e.isGoverned = false := by
    intro e he
    simp only [opening, List.mem_append, List.mem_cons, List.not_mem_nil, or_false] at he
    rcases he with he | rfl | rfl
    · exact Event.isGoverned_of_isOrdinary (Event.isOrdinary_of_isPlain (hbefore e he))
    · rfl
    · rfl
  have hlast : ∀ part, part <+: after → ∀ e ∈ .closed :: part, e.isGoverned = false := by
    rintro part hpart e (_ | ⟨_, he⟩)
    · rfl
    · exact isGoverned_of_part hafter hpart e he
  refine
    { journal_eq := rfl
      prepared := hbefore
      ungoverned := isGoverned_of_part hordinary List.prefix_rfl
      opened_once := ?_
      unset := fun part hpart =>
        governed_settingsAfter_eq_unset fun e he => hfirst e (hpart.subset he)
      performed := fun e he => ?_
      changed_in_chunk := ?_
      kept := fun part hpart => governed_settingsAfter_append (hlast part hpart) _ }
  · intro hmem
    rw [List.append_assoc, List.mem_append, List.mem_append] at hmem
    rcases hmem with hmem | hmem | hmem
    · cases hbefore _ hmem
    -- while a script runs no other one is started
    · obtain ⟨_, _, heq, -⟩ := hchunk _ hmem
      cases heq
    · exact Event.ne_opened_of_isOrdinary (hafter _ hmem) rfl
  · obtain ⟨r, x, rfl, -⟩ := hchunk e he
    exact ⟨r, x, rfl⟩
  · intro left e right hsplit hne
    -- the event wrote a governed setting, so that it can only stand in the chunk
    have hgov : e.isGoverned = true := by
      cases hg : e.isGoverned with
      | true => rfl
      | false => exact absurd (governed_settingsAfter_append (by simpa using hg) left) hne
    obtain ⟨done, rest, rfl, rfl⟩ := exists_of_append_eq hsplit
      (fun hmem => by simp [hfirst e hmem] at hgov)
      (fun hmem => by simp [hlast after List.prefix_rfl e hmem] at hgov)
    obtain ⟨r, x, rfl, hr⟩ := hchunk e (by simp)
    exact ⟨done, rest, r, x, rfl, rfl, rfl, (hr hgov).1⟩

/-- Under an override the run itself does not write governed settings. -/
theorem GovernedByOverride.isGoverned_of_mem {file : String} {descriptor : Path}
    {journal before chunk after : List Event}
    (h : GovernedByOverride file descriptor journal before chunk after) {c : Change}
    (hc : .changed c ∈ journal) : c.isGoverned = false := by
  rw [h.journal_eq] at hc
  simp only [opening, List.mem_append, List.mem_cons, List.not_mem_nil, or_false] at hc
  rcases hc with ((hc | hc | hc) | hc) | hc | hc
  · exact h.ungoverned _ (List.mem_append_left after hc)
  · cases hc
  · cases hc
  · obtain ⟨_, _, heq⟩ := h.performed _ hc
    cases heq
  · cases hc
  · exact h.ungoverned _ (List.mem_append_right before hc)

namespace Course

variable {g : Graph Script.Memory} {spec : RootSpec} {options : Options}
  {s t : GraphState Script.Memory} {es fs : List Evaluation}
  {outcome : Except ComposeError (List ResolvedUnit)}

/-- After the values of built-in defaults were written, a run goes on with ordinary events. -/
theorem governedByBuiltin (h : Course g spec options s .builtin es fs outcome t)
    (hs : ∀ e ∈ s.session.journal, e.isPlain = true) :
    ∃ before after, GovernedByBuiltin options.defaults t.session.journal before after := by
  have hwritten := s.journal_writeAll options.defaults.changes
  have hrest : (s.writeAll options.defaults.changes).session.Continues Event.isOrdinary t.session := by
    cases h with
    | @builtin _ _ t h => exact (h.continues rfl).trans (.note t.session rfl rfl)
    | builtinFailed h => exact h.continues rfl
  obtain ⟨after, hj, hafter⟩ := hrest
  rw [hj, hwritten]
  exact ⟨_, after, governedByBuiltin_of_ordinary options.defaults hs hafter⟩

/-- A run with an override starts with its script, or fails before it. -/
theorem overrides {path : Path}
    (h : Course g spec options s (.localOverride path) es fs outcome t) (hs : s.visited = []) :
    (t = s ∧ ∃ e, outcome = .error e) ∨
      ∃ descriptor chunk, g.Leads spec.overrideFile descriptor ∧
        Session.Overrides spec.overrideFile descriptor 0 chunk s.session t.session := by
  -- that the mode is unset may be noted after the override
  have hcheck : ∀ t : GraphState Script.Memory,
      t.session.Continues Event.isOrdinary (t.checkMode path).session := fun t =>
    (t.continues_checkMode path).mono fun _ he =>
      Event.isOrdinary_of_isPlain (Event.isPlain_of_isSetup he)
  cases h with
  | overrideFailed h =>
    rcases h.journal_override hs with ⟨rfl, -⟩ | hran
    · exact .inl ⟨rfl, _, rfl⟩
    · exact .inr hran
  | @override _ _ _ t _ _ u h h' =>
    rcases h.journal_override hs with ⟨-, _, herr⟩ | ⟨descriptor, chunk, hd, hran⟩
    · cases herr
    have hprojects := (hcheck t).trans (h'.continues rfl)
    exact .inr ⟨descriptor, chunk, hd,
      (hran.trans hprojects).trans (.note u.session rfl rfl)⟩
  | @projectsFailed _ _ _ t _ _ u h h' =>
    rcases h.journal_override hs with ⟨-, _, herr⟩ | ⟨descriptor, chunk, hd, hran⟩
    · cases herr
    exact .inr ⟨descriptor, chunk, hd, hran.trans ((hcheck t).trans (h'.continues rfl))⟩

end Course

/-- The source of defaults alone writes the governed settings.

Under built-in defaults they are unset until the values of the options are written, and have these
values from then on, whatever descriptors do.  Under an override the run itself never writes them.
Either the override never starts, and then the run fails and they stay unset; or they are unset until
its script starts, change only with requests about them that take effect while it runs, and stay as it
leaves them.  The settings of a plan are those that the whole journal makes. -/
theorem governed_settings_exclusive {tree : FileTree} {root : Root} {toolset : Toolset} {layout : Layout}
    {spec : RootSpec} (hspec : (root.read tree toolset layout).1 = .ok spec) (options : Options) :
    (∀ plan, (compose tree root toolset options layout).1 = .ok plan →
      plan.config = settingsAfter (compose tree root toolset options layout).2.journal) ∧
    match DefaultsSource.resolve tree root.runDir spec.overrideFile with
    | .builtin => ∃ before after, GovernedByBuiltin options.defaults
        (compose tree root toolset options layout).2.journal before after
    | .localOverride path =>
      (∀ c, .changed c ∈ (compose tree root toolset options layout).2.journal → c.isGoverned = false) ∧
      ((∃ e, (compose tree root toolset options layout).1 = .error e) ∧
          .opened .override ∉ (compose tree root toolset options layout).2.journal ∧
          (∀ part, part <+: (compose tree root toolset options layout).2.journal →
            (settingsAfter part).governed = .unset) ∨
        ∃ descriptor before chunk after, tree.canonicalFile? path = some descriptor ∧
          GovernedByOverride spec.overrideFile descriptor
            (compose tree root toolset options layout).2.journal before chunk after) := by
  obtain ⟨es, fs, outcome, t, hcourse, hrun⟩ := compose_course hspec options
  have hplain := journal_ready tree root toolset spec layout
  rw [hrun]
  refine ⟨fun plan hplan => ?_, ?_⟩
  · cases outcome with
    | error e => cases hplan
    | ok units =>
      cases hplan
      exact t.session.settings
  cases hsource : DefaultsSource.resolve tree root.runDir spec.overrideFile with
  | builtin =>
    rw [hsource] at hcourse
    exact hcourse.governedByBuiltin hplain
  | localOverride path =>
    rw [hsource] at hcourse
    rcases hcourse.overrides (visited_ready ..) with
      ⟨rfl, e, rfl⟩ | ⟨descriptor, chunk, hd, hchunk, after, hj, hafter⟩
    · have hordinary : ∀ e ∈ (root.ready tree toolset spec layout).session.journal, e.isOrdinary = true :=
        fun e he => Event.isOrdinary_of_isPlain (hplain e he)
      refine ⟨fun c hc => Event.isGoverned_of_isOrdinary (hordinary _ hc), .inl ⟨⟨e, rfl⟩, ?_, ?_⟩⟩
      · exact fun hmem => Event.ne_opened_of_isOrdinary (hordinary _ hmem) rfl
      · exact fun part hpart =>
          governed_settingsAfter_eq_unset (isGoverned_of_part hordinary hpart)
    · have hfile : tree.canonicalFile? path = some descriptor := by
        rw [eq_joinText_of_resolve hsource]
        exact leads_graph_iff.mp hd
      have hgov := governedByOverride_of_ordinary spec.overrideFile descriptor hplain hchunk hafter
      rw [← hj] at hgov
      exact ⟨fun c hc => hgov.isGoverned_of_mem hc, .inr ⟨descriptor, _, chunk, after, hfile, hgov⟩⟩

/-- A tree in which the override sets a mode and leaves a function that would set another one, and a
project calls that function. -/
def handedOverTree : FileTree :=
  (FileTree.empty.putEntry [standardOverride.toList] (.file (Utf8.encode
    ("prj.runtime_mode(\"debug\") prj.later = function() prj.runtime_mode(\"release\") end " ++
      "prj.required(\"a\")")))).putEntry
    [['a']] (.file (Utf8.encode
      "if type(prj.later) == \"function\" and not pcall(prj.later) then prj.lib(\"m\") end"))

/-- The function that the override has left in a shared table is there when a project calls it, and fails
without setting anything. -/
theorem governed_settings_handedOver :
    (∃ descriptor before chunk after,
      GovernedByOverride standardOverride descriptor
        (compose handedOverTree (topRoot .empty) ⟨"gcc"⟩ .standard).2.journal before chunk after) ∧
    (compose handedOverTree (topRoot .empty) ⟨"gcc"⟩ .standard).1.toOption.map
      (fun plan => (plan.config.governed, plan.units.map (·.settings.libs))) =
      some (⟨some .debug, none, false⟩, [["m"]]) := by
  have hsource : DefaultsSource.resolve handedOverTree (topRoot .empty).runDir
      RootSpec.empty.overrideFile = .localOverride (Path.ofString "/local-build.lua") := by
    decide +kernel
  have hplan : (compose handedOverTree (topRoot .empty) ⟨"gcc"⟩ .standard).1.toOption.map
      (fun plan => (plan.config.governed, plan.units.map (·.settings.libs))) =
      some (⟨some .debug, none, false⟩, [["m"]]) := by
    decide +kernel
  have h := (@governed_settings_exclusive handedOverTree (topRoot .empty) ⟨"gcc"⟩ .standard .empty rfl
    .standard).2
  rw [hsource] at h
  rcases h with ⟨-, ⟨⟨e, he⟩, -⟩ | ⟨descriptor, before, chunk, after, -, hgov⟩⟩
  · rw [he] at hplan
    cases hplan
  · exact ⟨⟨descriptor, before, chunk, after, hgov⟩, hplan⟩

end BuildComposition
