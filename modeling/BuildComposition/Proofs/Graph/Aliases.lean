import BuildComposition.Proofs.Graph.Determinacy
import BuildComposition.Proofs.Simulation
import Mathlib.Data.List.Forall2

/-!
# References that spell a path in another way

Descriptors are told apart by their canonical paths alone.  If some references are replaced by
others that lead to the same descriptors, then calls on a graph do the same: they evaluate the same
descriptors in the same order and at the same depths, and fail at the same references if they fail.
Only what is written down of the references themselves can differ, and a descriptor sees nothing of
it.

## Main definitions

* `Evaluator.Blind`: descriptors see of a session the frame alone
* `Graph.Alias`: two references are the same, or lead to the same descriptor
* `GraphState.Alike`, `Graph.TaskAlike`, `Graph.UnitAlike`, `Graph.ErrorAlike`: what differs at most in
  how references are written

## Main results

* `Graph.Follows.alike`: derivations from aliases of the references
* `Graph.simulates_call`: calls with aliases of the references
-/

namespace BuildComposition

/-- The sessions differ at most in what was noted. -/
structure Session.Alike (s t : Session) : Prop where
  config_eq : s.config = t.config
  frame_eq : s.frame = t.frame

namespace Session.Alike

variable {s t : Session}

theorem refl (s : Session) : s.Alike s := ⟨rfl, rfl⟩

theorem note (h : s.Alike t) (e e' : Event) (he : e.change? = none) (he' : e'.change? = none) :
    (s.note e he).Alike (t.note e' he') := ⟨h.config_eq, h.frame_eq⟩

theorem openFrame (h : s.Alike t) (kind : DescriptorKind) :
    (s.openFrame kind).Alike (t.openFrame kind) := ⟨h.config_eq, rfl⟩

theorem closeFrame (h : s.Alike t) : s.closeFrame.Alike t.closeFrame := ⟨h.config_eq, rfl⟩

theorem extend (h : s.Alike t) (u : Session) : (s.extend u).Alike (t.extend u) := by
  refine ⟨?_, rfl⟩
  show s.config.applyAll _ = t.config.applyAll _
  rw [h.config_eq]

end Session.Alike

variable {μ : Type}

/-- Descriptors see of a session the frame alone. -/
def Evaluator.Blind (evaluator : Evaluator μ) : Prop :=
  ∀ path memory (s t : Session), s.frame = t.frame →
    (evaluator.run path memory s).1 = (evaluator.run path memory t).1 ∧
    (evaluator.run path memory s).2.1 = (evaluator.run path memory t).2.1 ∧
    ∃ done, (evaluator.run path memory s).2.2.session = s.extend done ∧
      (evaluator.run path memory t).2.2.session = t.extend done

/-- The states differ at most in what was noted. -/
structure GraphState.Alike (s t : GraphState μ) : Prop where
  memory_eq : s.memory = t.memory
  visited_eq : s.visited = t.visited
  session : s.session.Alike t.session

namespace GraphState.Alike

variable {s t : GraphState μ}

theorem note (h : s.Alike t) (e e' : Event) (he : e.change? = none) (he' : e'.change? = none) :
    (s.note e he).Alike (t.note e' he') := ⟨h.memory_eq, h.visited_eq, h.session.note e e' he he'⟩

theorem descend (h : s.Alike t) (reference reference' : String) (queue : List String) :
    (s.descend reference queue).Alike (t.descend reference' queue) := by
  unfold GraphState.descend
  split
  · exact h
  · exact h.note _ _ _ _

end GraphState.Alike

namespace Graph

variable (g : Graph μ)

/-- The references are the same, or lead to the same descriptor. -/
def Alias (reference reference' : String) : Prop :=
  reference = reference' ∨ ∃ descriptor, g.Leads reference descriptor ∧ g.Leads reference' descriptor

/-- The links have the same descriptor, and their references are aliases. -/
structure LinkAlike (link link' : Link) : Prop where
  reference : g.Alias link.reference link'.reference
  descriptor_eq : link.descriptor = link'.descriptor

/-- The tasks differ at most in how references are written. -/
inductive TaskAlike : Task → Task → Prop
  | one {kind position reference reference'} (h : g.Alias reference reference') :
      TaskAlike (.one kind position reference) (.one kind position reference')
  | all {position references references'} (h : List.Forall₂ g.Alias references references') :
      TaskAlike (.all position references) (.all position references')

/-- The units differ at most in how their references and those of their parents are written. -/
structure UnitAlike (u v : ResolvedUnit) : Prop where
  reference : g.Alias u.reference v.reference
  parent : Option.Rel g.Alias u.parent v.parent
  descriptor_eq : u.descriptor = v.descriptor
  depth_eq : u.depth = v.depth
  target_eq : u.target = v.target
  settings_eq : u.settings = v.settings

/-- The errors are of the same kind and about the same reference, and differ at most in how
references are written. -/
inductive ErrorAlike : GraphError → GraphError → Prop
  | notFound {reference resolved position chain chain'} (h : List.Forall₂ g.Alias chain chain') :
      ErrorAlike (.notFound reference resolved position chain)
        (.notFound reference resolved position chain')
  | descriptor {reference reference' position chain chain' cause}
      (h : g.Alias reference reference') (hchain : List.Forall₂ g.Alias chain chain') :
      ErrorAlike (.descriptor reference position chain cause)
        (.descriptor reference' position chain' cause)
  | cycle {chain chain'} (h : List.Forall₂ g.Alias chain chain') :
      ErrorAlike (.cycle chain) (.cycle chain')
  | tooDeep {limit chain chain'} (h : List.Forall₂ g.Alias chain chain') :
      ErrorAlike (.tooDeep limit chain) (.tooDeep limit chain')

variable {g} {below below' : List Link}

theorem Alias.refl (reference : String) : g.Alias reference reference := .inl rfl

theorem Alias.leads {reference reference' : String} {descriptor : Path}
    (h : g.Alias reference reference') (hleads : g.Leads reference descriptor) :
    g.Leads reference' descriptor := by
  rcases h with rfl | ⟨other, hother, hother'⟩
  · exact hleads
  · rw [hleads.unique hother]
    exact hother'

/-- Nothing but a reference itself is an alias of one that leads nowhere. -/
theorem Alias.eq_of_find?_eq_none {reference reference' : String}
    (h : g.Alias reference reference')
    (hfind : g.evaluator.find? (g.resolvePath reference) = none) : reference = reference' := by
  rcases h with rfl | ⟨descriptor, hleads, -⟩
  · rfl
  · exact absurd hleads (not_leads_of_find?_eq_none hfind descriptor)

theorem forall₂_alias_refl (references : List String) :
    List.Forall₂ g.Alias references references :=
  List.forall₂_same.mpr fun reference _ => .refl reference

/-! ## Places -/

theorem forall₂_links (h : List.Forall₂ g.LinkAlike below below') :
    List.Forall₂ g.LinkAlike (g.links below) (g.links below') :=
  List.rel_append (List.forall₂_same.mpr fun _ _ => ⟨.refl _, rfl⟩) h

theorem forall₂_chain (h : List.Forall₂ g.LinkAlike below below') :
    List.Forall₂ g.Alias (g.chain below) (g.chain below') := by
  rw [chain, chain, List.forall₂_map_left_iff, List.forall₂_map_right_iff]
  exact (forall₂_links h).imp fun _ _ hlink => hlink.reference

/-- The same descriptors lead to alike places. -/
theorem map_descriptor_links (h : List.Forall₂ g.LinkAlike below below') :
    (g.links below).map (·.descriptor) = (g.links below').map (·.descriptor) := by
  rw [← List.forall₂_eq_eq_eq, List.forall₂_map_left_iff, List.forall₂_map_right_iff]
  exact (forall₂_links h).imp fun _ _ hlink => hlink.descriptor_eq

theorem Refuses.alike {position : Nat} {reference reference' : String} {e : GraphError}
    (h : g.Refuses below position reference e) (hbelow : List.Forall₂ g.LinkAlike below below')
    (ha : g.Alias reference reference') :
    ∃ e', g.Refuses below' position reference' e' ∧ g.ErrorAlike e e' := by
  have hchain := forall₂_chain hbelow
  have hlonger : List.Forall₂ g.Alias (g.chain below ++ [reference])
      (g.chain below' ++ [reference']) :=
    List.rel_append hchain (.cons ha .nil)
  have hdescriptors := map_descriptor_links hbelow
  cases h with
  | notFound hfind =>
    obtain rfl := ha.eq_of_find?_eq_none hfind
    exact ⟨_, .notFound hfind, .notFound hchain⟩
  | @cycle descriptor link hleads hlink hagrees =>
    have hmem : link.descriptor ∈ (g.links below').map (·.descriptor) :=
      hdescriptors ▸ List.mem_map_of_mem hlink
    obtain ⟨link', hlink', heq⟩ := List.mem_map.mp hmem
    exact ⟨_, .cycle (ha.leads hleads) hlink' (heq ▸ hagrees), .cycle hlonger⟩
  | @tooDeep descriptor hleads hapart hdepth =>
    have hapart' : ∀ l ∈ g.links below', l.descriptor.agrees descriptor = false := by
      intro l hl
      have hmem : l.descriptor ∈ (g.links below).map (·.descriptor) :=
        hdescriptors ▸ List.mem_map_of_mem hl
      obtain ⟨l', hl', heq⟩ := List.mem_map.mp hmem
      exact heq ▸ hapart l' hl'
    exact ⟨_, .tooDeep (ha.leads hleads) hapart' (hbelow.length_eq ▸ hdepth), .tooDeep hlonger⟩

theorem Admits.alike {link : Link} {reference' : String} (h : g.Admits below link)
    (hbelow : List.Forall₂ g.LinkAlike below below') (ha : g.Alias link.reference reference') :
    g.Admits below' ⟨reference', link.descriptor⟩ := by
  refine ⟨ha.leads h.leads, ?_, hbelow.length_eq ▸ h.depth_lt⟩
  intro l hl
  have hmem : l.descriptor ∈ (g.links below).map (·.descriptor) :=
    map_descriptor_links hbelow ▸ List.mem_map_of_mem hl
  obtain ⟨l', hl', heq⟩ := List.mem_map.mp hmem
  exact heq ▸ h.apart l' hl'

/-! ## Descriptors -/

/-- A descriptor that sees the frame alone does the same whatever was noted before. -/
theorem runDescriptor_alike (hg : g.evaluator.Blind) (descriptor : Path) (kind : DescriptorKind)
    {s s' : GraphState μ} (hs : s.Alike s') :
    (g.runDescriptor descriptor kind s).1 = (g.runDescriptor descriptor kind s').1 ∧
      (g.runDescriptor descriptor kind s).2.Alike (g.runDescriptor descriptor kind s').2 := by
  obtain ⟨memory, session, visited⟩ := s
  obtain ⟨memory', session', visited'⟩ := s'
  obtain ⟨rfl, rfl, hsession⟩ := hs
  have hopened := hsession.openFrame kind
  obtain ⟨hresult, hmemory, done, hdone, hdone'⟩ := hg descriptor memory _ _ hopened.frame_eq
  have hperformed := hopened.extend done
  rw [← hdone, ← hdone'] at hperformed
  simp only [runDescriptor]
  refine ⟨?_, hmemory, rfl, hperformed.closeFrame⟩
  rw [hresult, hperformed.frame_eq]

/-- Entering a descriptor through an alias does the same. -/
theorem Enters.alike {kind : DescriptorKind} {depth : Nat} {link : Link} {s s' t : GraphState μ}
    {requests : List Request} {result : Except ScriptError Frame}
    (h : g.Enters kind depth link s requests result t) (hg : g.evaluator.Blind) (hs : s.Alike s')
    (reference' : String) :
    ∃ requests' t', g.Enters kind depth ⟨reference', link.descriptor⟩ s' requests' result t' ∧
      t.Alike t' := by
  have hmarked : ({ s with visited := link.descriptor :: s.visited } : GraphState μ).Alike
      { s' with visited := link.descriptor :: s'.visited } :=
    ⟨hs.memory_eq, congrArg (link.descriptor :: ·) hs.visited_eq, hs.session⟩
  have hnoted := hmarked.note (.evaluating link.reference link.descriptor depth)
    (.evaluating reference' link.descriptor depth) rfl rfl
  obtain ⟨hresult, halike⟩ := runDescriptor_alike hg link.descriptor kind hnoted
  have henter := h.enter_eq
  rw [enter] at henter
  rw [henter] at hresult halike
  -- the link with the other reference is entered in the other state
  rcases henter' : g.enter kind depth ⟨reference', link.descriptor⟩ s' with ⟨result', t'⟩
  obtain ⟨requests', h'⟩ := enter_enters henter'
  rw [enter] at henter'
  rw [henter'] at hresult halike
  obtain rfl : result = result' := hresult
  exact ⟨requests', t', h', halike⟩

/-! ## Derivations -/

theorem unitAlike_unitOf (hbelow : List.Forall₂ g.LinkAlike below below') (kind : DescriptorKind)
    {link : Link} {reference' : String} (ha : g.Alias link.reference reference') (frame : Frame) :
    List.Forall₂ g.UnitAlike (unitOf kind below link frame).toList
      (unitOf kind below' ⟨reference', link.descriptor⟩ frame).toList := by
  cases kind with
  | override => exact .nil
  | project =>
    have hparent : Option.Rel g.Alias (below.getLast?.map (·.reference))
        (below'.getLast?.map (·.reference)) := by
      rw [← List.head?_reverse, ← List.head?_reverse]
      have hreversed : List.Forall₂ g.LinkAlike below.reverse below'.reverse :=
        List.rel_reverse hbelow
      generalize below.reverse = last, below'.reverse = last' at hreversed
      cases hreversed with
      | nil => exact .none
      | cons hlink => exact .some hlink.reference
    exact .cons ⟨ha, hparent, rfl, hbelow.length_eq, rfl, rfl⟩ .nil

/-- Tasks that differ at most in how references are written lead to the same descriptors. -/
theorem Follows.alike {task task' : Task} {s s' t : GraphState μ} {es : List Evaluation}
    {outcome : Except GraphError (List ResolvedUnit)} (h : g.Follows below task s es outcome t)
    (hg : g.evaluator.Blind) (hbelow : List.Forall₂ g.LinkAlike below below')
    (htask : g.TaskAlike task task') (hs : s.Alike s') :
    ∃ es' outcome' t', g.Follows below' task' s' es' outcome' t' ∧
      Matches g.ErrorAlike (List.Forall₂ g.UnitAlike) outcome outcome' ∧ t.Alike t' := by
  induction h generalizing below' task' s' with
  | refused h =>
    cases htask with
    | one halias =>
      obtain ⟨e', h', he⟩ := h.alike hbelow halias
      exact ⟨_, _, _, .refused h', .error he, hs⟩
  | skipped ha hv =>
    cases htask with
    | one halias =>
      exact ⟨_, _, _, .skipped (ha.alike hbelow halias) (hs.visited_eq ▸ hv), .ok .nil,
        hs.note _ _ _ _⟩
  | failed ha hv hr =>
    cases htask with
    | @one _ _ _ reference' halias =>
      obtain ⟨requests', t', hr', ht⟩ := hr.alike hg hs reference'
      rw [hbelow.length_eq] at hr'
      exact ⟨_, _, _, .failed (ha.alike hbelow halias) (hs.visited_eq ▸ hv) hr',
        .error (.descriptor halias (forall₂_chain hbelow)), ht⟩
  | @evaluated below kind position link s requests frame t es outcome u ha hv hr _ ih =>
    cases htask with
    | @one _ _ _ reference' halias =>
      obtain ⟨requests', t', hr', ht⟩ := hr.alike hg hs reference'
      rw [hbelow.length_eq] at hr'
      -- the queue is the same, and is followed at a place that is alike
      have hlonger : List.Forall₂ g.LinkAlike (below ++ [link])
          (below' ++ [⟨reference', link.descriptor⟩]) :=
        List.rel_append hbelow (.cons ⟨halias, rfl⟩ .nil)
      obtain ⟨es', outcome', u', h', houtcome, hu⟩ :=
        ih hlonger (.all (forall₂_alias_refl frame.required))
          (ht.descend link.reference reference' frame.required)
      refine ⟨_, _, _, .evaluated (ha.alike hbelow halias) (hs.visited_eq ▸ hv) hr' h', ?_, hu⟩
      exact houtcome.map fun _ _ hunits =>
        List.rel_append (unitAlike_unitOf hbelow kind halias frame) hunits
  | nil =>
    cases htask with
    | all hall =>
      cases hall
      exact ⟨_, _, _, .nil, .ok .nil, hs⟩
  | cons _ _ ih ih' =>
    cases htask with
    | all hall =>
      cases hall with
      | cons halias hrest =>
        obtain ⟨es', first, t', h, hfirst, ht⟩ := ih hbelow (.one halias) hs
        cases hfirst with
        | ok hunits =>
          obtain ⟨fs', outcome', u', h', houtcome, hu⟩ := ih' hbelow (.all hrest) ht
          refine ⟨_, _, _, .cons h h', ?_, hu⟩
          exact houtcome.map fun _ _ hmore => List.rel_append hunits hmore
  | stop _ ih =>
    cases htask with
    | all hall =>
      cases hall with
      | cons halias hrest =>
        obtain ⟨es', first, t', h, hfirst, ht⟩ := ih hbelow (.one halias) hs
        cases hfirst with
        | error he => exact ⟨_, _, _, .stop h, .error he, ht⟩

/-- Calls with aliases of the references do the same. -/
theorem simulates_call (hg : g.evaluator.Blind) {c c' : Call} (hc : g.TaskAlike c.task c'.task) :
    Simulates GraphState.Alike g.ErrorAlike (List.Forall₂ g.UnitAlike) (g.call c) (g.call c') := by
  intro s s' hs
  obtain ⟨es, outcome, t, h, hrun⟩ := g.call_derives c s
  obtain ⟨es', outcome', t', h', houtcome, ht⟩ := h.alike hg .nil hc hs
  rw [hrun, run_eq_of_follows h']
  cases houtcome with
  | ok hunits => exact .ok hunits ht
  | error he => exact .error he ht

end Graph

end BuildComposition
