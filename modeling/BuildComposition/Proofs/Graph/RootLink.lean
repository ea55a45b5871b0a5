import BuildComposition.Proofs.Graph.Visited

/-!
# The link of the root

The link that stands for the root decides two things: what may not be required, and how chains
begin.  If no reference that is followed leads to the root, what is followed with one root is thus
followed with every other one, and only the label at the head of chains is another one.

## Main definitions

* `followed`: the references that were followed according to a journal and an error
* `GraphError.withLabel`: an error with another label of the root
* `Graph.withRoot`: the same graph with another link of the root

## Main results

* `Graph.Follows.withRoot`: derivations of a graph with another link of the root
-/

namespace BuildComposition

/-! ## References that are followed -/

/-- The reference whose descriptor is evaluated or skipped. -/
def Event.reference? : Event → Option String
  | evaluating reference _ _ | skipped reference => some reference
  | _ => none

namespace GraphError

/-- The reference that could not be followed. -/
def reference? : GraphError → Option String
  | notFound reference .. | descriptor reference .. => some reference
  | cycle chain | tooDeep _ chain => chain.getLast?

/-- The same error with another label at the head of its chain. -/
def withLabel (label : String) : GraphError → GraphError
  | notFound reference resolved position chain =>
    notFound reference resolved position (label :: chain.tail)
  | descriptor reference position chain cause =>
    descriptor reference position (label :: chain.tail) cause
  | cycle chain => cycle (label :: chain.tail)
  | tooDeep limit chain => tooDeep limit (label :: chain.tail)

end GraphError

/-- The references that were followed: those whose descriptors were evaluated or skipped, and the
one that failed. -/
def followed (journal : List Event) (failed : Option String) : List String :=
  journal.filterMap Event.reference? ++ failed.toList

theorem mem_followed {journal : List Event} {failed : Option String} {reference : String} :
    reference ∈ followed journal failed ↔
      (∃ e ∈ journal, e.reference? = some reference) ∨ failed = some reference := by
  simp [followed]

/-- A longer journal tells of the references of a shorter one. -/
theorem mem_followed_mono {journal longer : List Event} {failed : Option String}
    {reference : String} (h : reference ∈ followed journal none) (hgrows : journal <+: longer) :
    reference ∈ followed longer failed := by
  rw [mem_followed] at h ⊢
  rcases h with ⟨e, he, href⟩ | h
  · exact .inl ⟨e, hgrows.subset he, href⟩
  · cases h

/-- The reference at which following has failed. -/
def failure? {ε α : Type} (reference? : ε → Option String) : Except ε α → Option String
  | .error e => reference? e
  | .ok _ => none

theorem failure?_map {ε α β : Type} (reference? : ε → Option String) (outcome : Except ε α) (f : α → β) :
    failure? reference? (outcome.map f) = failure? reference? outcome := by
  cases outcome <;> rfl

namespace Graph

variable {μ : Type} {g : Graph μ} {below : List Link} {s t : GraphState μ} {old new : Link}

/-- The same graph with another link of the root. -/
def withRoot (g : Graph μ) (link : Link) : Graph μ := { g with root := some link }

/-- Chains differ in their first label alone. -/
theorem chain_withRoot (hroot : g.root = some old) :
    (g.withRoot new).chain below = new.reference :: (g.chain below).tail := by
  simp [chain, links, withRoot, hroot]

theorem mem_links_iff (hroot : g.root = some old) {link : Link} :
    link ∈ g.links below ↔ link = old ∨ link ∈ below := by
  simp [links, hroot]

theorem apart_withRoot {descriptor : Path}
    (hbelow : ∀ l ∈ g.links below, l.descriptor.agrees descriptor = false)
    (hnew : new.descriptor.agrees descriptor = false) :
    ∀ l ∈ (g.withRoot new).links below, l.descriptor.agrees descriptor = false := by
  intro l hl
  rcases (mem_links_iff rfl).mp hl with rfl | hl
  · exact hnew
  · exact hbelow l (List.mem_append_right _ hl)

theorem Admits.withRoot {link : Link} (h : g.Admits below link)
    (hnew : new.descriptor.agrees link.descriptor = false) : (g.withRoot new).Admits below link :=
  ⟨h.leads, apart_withRoot h.apart hnew, h.depth_lt⟩

theorem Enters.withRoot {kind : DescriptorKind} {depth : Nat} {link : Link} {requests : List Request}
    {result : Except ScriptError Frame} (h : g.Enters kind depth link s requests result t)
    (new : Link) : (g.withRoot new).Enters kind depth link s requests result t :=
  ⟨h.enter_eq, h.visited_eq, h.idle, h.frame_eq, h.journal_eq⟩

/-- The error of a reference that is refused names the reference. -/
theorem Refuses.reference?_eq {position : Nat} {reference : String} {e : GraphError}
    (h : g.Refuses below position reference e) : e.reference? = some reference := by
  cases h with
  | notFound => rfl
  | cycle | tooDeep => exact List.getLast?_concat

theorem Refuses.withRoot {position : Nat} {reference : String} {e : GraphError}
    (h : g.Refuses below position reference e) (hroot : g.root = some old)
    (hnew : ∀ d, g.Leads reference d → new.descriptor.agrees d = false)
    (hold : ∀ d, g.Leads reference d → old.descriptor.agrees d = false) :
    (g.withRoot new).Refuses below position reference (e.withLabel new.reference) := by
  have hchain : (g.withRoot new).chain below ++ [reference] =
      new.reference :: (g.chain below ++ [reference]).tail := by
    simp [chain, links, Graph.withRoot, hroot]
  cases h with
  | notFound h =>
    rw [GraphError.withLabel, ← chain_withRoot hroot]
    exact .notFound h
  | @cycle descriptor link h hlink hagrees =>
    rw [GraphError.withLabel, ← hchain]
    -- the cycle is not through the old root, and all other links are on the way with the new one, too
    rcases (mem_links_iff hroot).mp hlink with rfl | hlink
    · rw [hold descriptor h] at hagrees
      cases hagrees
    · exact .cycle h (List.mem_append_right _ hlink) hagrees
  | @tooDeep descriptor h hapart hdepth =>
    rw [GraphError.withLabel, ← hchain]
    exact .tooDeep h (apart_withRoot hapart (hnew descriptor h)) hdepth

/-- The journal tells of a reference whose descriptor was entered. -/
theorem Enters.mem_followed {kind : DescriptorKind} {depth : Nat} {link : Link}
    {requests : List Request} {result : Except ScriptError Frame}
    (h : g.Enters kind depth link s requests result t) :
    link.reference ∈ followed t.session.journal none := by
  obtain ⟨chunk, hj, -⟩ := h.journal_eq
  refine BuildComposition.mem_followed.mpr (.inl
    ⟨.evaluating link.reference link.descriptor depth, ?_, rfl⟩)
  rw [hj]
  exact List.mem_append_right _ List.mem_cons_self

/-- The journal only grows. -/
theorem Follows.journal_grows {task : Task} {es : List Evaluation}
    {outcome : Except GraphError (List ResolvedUnit)} (h : g.Follows below task s es outcome t) :
    s.session.journal <+: t.session.journal := by
  obtain ⟨events, hj, -⟩ := h.exists_events
  exact ⟨events, hj.symm⟩

/-- A derivation of a graph is one of the graph with another link of the root, up to the label of
the root in an error, if no reference that is followed leads to the new root, and none that fails to
the old one. -/
theorem Follows.withRoot {task : Task} {es : List Evaluation}
    {outcome : Except GraphError (List ResolvedUnit)} (h : g.Follows below task s es outcome t)
    (hroot : g.root = some old)
    (hnew : ∀ r ∈ followed t.session.journal (failure? GraphError.reference? outcome), ∀ d,
      g.Leads r d → new.descriptor.agrees d = false)
    (hold : ∀ r ∈ failure? GraphError.reference? outcome, ∀ d,
      g.Leads r d → old.descriptor.agrees d = false) :
    (g.withRoot new).Follows below task s es (outcome.mapError (·.withLabel new.reference)) t := by
  -- what the journal tells at the end it also tells of each part, as it only grows on the way; only
  -- the part that fails has a reference that fails
  induction h with
  | refused h =>
    have hreference := h.reference?_eq
    refine .refused (h.withRoot hroot (hnew _ ?_) (hold _ ?_))
    · exact mem_followed.mpr (.inr hreference)
    · exact hreference
  | @skipped below kind position link s ha hv =>
    refine .skipped (ha.withRoot (hnew link.reference ?_ _ ha.leads)) hv
    refine mem_followed.mpr (.inl ⟨.skipped link.reference, ?_, rfl⟩)
    exact List.mem_append_right _ (List.mem_singleton_self _)
  | @failed below kind position link s requests e t ha hv hr =>
    have hmem := hnew _ (mem_followed_mono hr.mem_followed List.prefix_rfl)
    have houtcome : (Except.error (GraphError.descriptor link.reference position (g.chain below) e) :
        Except GraphError (List ResolvedUnit)).mapError (·.withLabel new.reference) =
          .error (.descriptor link.reference position ((g.withRoot new).chain below) e) := by
      rw [chain_withRoot hroot]
      rfl
    rw [houtcome]
    exact .failed (ha.withRoot (hmem _ ha.leads)) hv (hr.withRoot new)
  | @evaluated below kind position link s requests frame t es outcome u ha hv hr h ih =>
    rw [failure?_map] at hnew hold
    obtain ⟨noted, hnoted, -⟩ := t.journal_descend link.reference frame.required
    have hgrows : t.session.journal <+: u.session.journal :=
      .trans ⟨noted, hnoted.symm⟩ h.journal_grows
    have hmem := hnew _ (mem_followed_mono hr.mem_followed hgrows)
    have hevaluated : (g.withRoot new).Follows below (.one kind position link.reference) s _ _ u :=
      .evaluated (ha.withRoot (hmem _ ha.leads)) hv (hr.withRoot new) (ih hnew hold)
    cases outcome <;> exact hevaluated
  | nil => exact .nil
  | @cons below position reference rest s es units t fs outcome u h h' ih ih' =>
    rw [failure?_map] at hnew hold
    have hfirst := ih (fun r hr => hnew r (mem_followed_mono hr h'.journal_grows))
      (by simp [failure?])
    have hcons := Follows.cons hfirst (ih' hnew hold)
    cases outcome <;> exact hcons
  | stop _ ih => exact .stop (ih hnew hold)

end Graph

end BuildComposition
