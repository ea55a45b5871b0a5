import BuildComposition.Proofs.Graph.Visited

/-!
# Derivations decide calls

Every call has a derivation.  A task has but one outcome from a state, so that a derivation also
tells what the call does: what is shown of derivations holds of the calls themselves, and two calls
can be compared by turning a derivation of the one into a derivation of the other.

## Main results

* `Graph.Follows.admitted_cases`: what can happen to a reference that is not refused
* `Graph.Follows.unique`: following a task from a state has one outcome
* `Graph.run_eq_of_follows`: a call ends as its derivation does
-/

namespace BuildComposition.Graph

variable {μ : Type} {g : Graph μ} {below : List Link} {s t u : GraphState μ}

/-! ## One check decides -/

theorem not_leads_of_find?_eq_none {reference : String}
    (h : g.evaluator.find? (g.resolvePath reference) = none) (descriptor : Path) :
    ¬g.Leads reference descriptor := by
  intro hleads
  rw [Leads, h] at hleads
  cases hleads

/-- A reference that is refused does not lead to a descriptor that is admitted. -/
theorem Refuses.not_admits {position : Nat} {link : Link} {e : GraphError}
    (h : g.Refuses below position link.reference e) : ¬g.Admits below link := by
  intro ha
  cases h with
  | notFound h => exact not_leads_of_find?_eq_none h _ ha.leads
  | cycle h hlink hagrees =>
    rw [h.unique ha.leads, ha.apart _ hlink] at hagrees
    cases hagrees
  | tooDeep _ _ hdepth => exact Nat.not_lt.mpr hdepth ha.depth_lt

/-- A reference is refused for one reason. -/
theorem Refuses.unique {position : Nat} {reference : String} {e e' : GraphError}
    (h : g.Refuses below position reference e) (h' : g.Refuses below position reference e') :
    e = e' := by
  -- the cycle is looked for before the depth
  have hapart : ∀ {descriptor descriptor' : Path} {link : Link}, g.Leads reference descriptor →
      g.Leads reference descriptor' → link ∈ g.links below →
      link.descriptor.agrees descriptor = true →
      ¬∀ l ∈ g.links below, l.descriptor.agrees descriptor' = false := by
    intro descriptor descriptor' link hleads hleads' hlink hagrees hfalse
    rw [hleads.unique hleads', hfalse link hlink] at hagrees
    cases hagrees
  cases h with
  | notFound hfind =>
    cases h' with
    | notFound => rfl
    | cycle hleads | tooDeep hleads => exact absurd hleads (not_leads_of_find?_eq_none hfind _)
  | cycle hleads hlink hagrees =>
    cases h' with
    | notFound hfind => exact absurd hleads (not_leads_of_find?_eq_none hfind _)
    | cycle => rfl
    | tooDeep hleads' hfalse => exact absurd hfalse (hapart hleads hleads' hlink hagrees)
  | tooDeep hleads hfalse =>
    cases h' with
    | notFound hfind => exact absurd hleads (not_leads_of_find?_eq_none hfind _)
    | cycle hleads' hlink hagrees => exact absurd hfalse (hapart hleads' hleads hlink hagrees)
    | tooDeep => rfl

theorem Admits.eq_of_reference_eq {link link' : Link} (h : g.Admits below link)
    (h' : g.Admits below link') (href : link.reference = link'.reference) : link = link' := by
  have hleads := h.leads
  rw [href] at hleads
  cases link
  cases link'
  simp only [Link.mk.injEq]
  exact ⟨href, hleads.unique h'.leads⟩

theorem Enters.unique {kind : DescriptorKind} {depth : Nat} {link : Link}
    {requests requests' : List Request} {result result' : Except ScriptError Frame}
    (h : g.Enters kind depth link s requests result t)
    (h' : g.Enters kind depth link s requests' result' u) : result = result' ∧ t = u :=
  Prod.mk.inj (h.enter_eq.symm.trans h'.enter_eq)

/-! ## One outcome -/

namespace Follows

variable {es fs : List Evaluation} {outcome outcome' : Except GraphError (List ResolvedUnit)}

/-- What can happen to a reference that is not refused: its descriptor was visited, or it fails, or
its queue is followed. -/
theorem admitted_cases {kind : DescriptorKind} {position : Nat} {link : Link}
    (h : g.Follows below (.one kind position link.reference) s es outcome t)
    (ha : g.Admits below link) :
    (link.descriptor ∈ s.visited ∧ outcome = .ok [] ∧ t = s.note (.skipped link.reference)) ∨
    link.descriptor ∉ s.visited ∧ ∃ requests,
      (∃ e, g.Enters kind below.length link s requests (.error e) t ∧
        outcome = .error (.descriptor link.reference position (g.chain below) e)) ∨
      ∃ frame u fs result, g.Enters kind below.length link s requests (.ok frame) u ∧
        g.Follows (below ++ [link]) (.all 1 frame.required)
          (u.descend link.reference frame.required) fs result t ∧
        outcome = result.map ((unitOf kind below link frame).toList ++ ·) := by
  generalize href : link.reference = reference at h
  cases h with
  | refused h => exact absurd ha (Refuses.not_admits (href ▸ h))
  | skipped ha' hv =>
    obtain rfl := ha.eq_of_reference_eq ha' href
    exact .inl ⟨hv, rfl, rfl⟩
  | failed ha' hv hr =>
    obtain rfl := ha.eq_of_reference_eq ha' href
    exact .inr ⟨hv, _, .inl ⟨_, hr, rfl⟩⟩
  | evaluated ha' hv hr h =>
    obtain rfl := ha.eq_of_reference_eq ha' href
    exact .inr ⟨hv, _, .inr ⟨_, _, _, _, hr, h, rfl⟩⟩

/-- Following a task from a state has one outcome and leads to one state. -/
theorem unique {task : Task} (h : g.Follows below task s es outcome t)
    (h' : g.Follows below task s fs outcome' u) : outcome = outcome' ∧ t = u := by
  induction h generalizing fs outcome' u with
  | refused h =>
    cases h' with
    | refused h' => exact ⟨by rw [h.unique h'], rfl⟩
    | skipped ha | failed ha | evaluated ha => exact absurd ha h.not_admits
  | skipped ha hv =>
    rcases h'.admitted_cases ha with ⟨-, rfl, rfl⟩ | ⟨hnew, -⟩
    · exact ⟨rfl, rfl⟩
    · exact absurd hv hnew
  | failed ha hv hr =>
    rcases h'.admitted_cases ha with
      ⟨hold, -⟩ | ⟨-, _, ⟨e, hr', rfl⟩ | ⟨frame, _, _, _, hr', -⟩⟩
    · exact absurd hold hv
    · obtain ⟨hresult, rfl⟩ := hr.unique hr'
      cases hresult
      exact ⟨rfl, rfl⟩
    · cases (hr.unique hr').1
  | evaluated ha hv hr _ ih =>
    rcases h'.admitted_cases ha with
      ⟨hold, -⟩ | ⟨-, _, ⟨e, hr', -⟩ | ⟨frame, _, _, _, hr', hqueue, rfl⟩⟩
    · exact absurd hold hv
    · cases (hr.unique hr').1
    · obtain ⟨hresult, rfl⟩ := hr.unique hr'
      cases hresult
      obtain ⟨rfl, rfl⟩ := ih hqueue
      exact ⟨rfl, rfl⟩
  | nil =>
    cases h'
    exact ⟨rfl, rfl⟩
  | cons _ _ ih ih' =>
    cases h' with
    | cons h h' =>
      obtain ⟨hunits, rfl⟩ := ih h
      cases hunits
      obtain ⟨rfl, rfl⟩ := ih' h'
      exact ⟨rfl, rfl⟩
    | stop h => cases (ih h).1
  | stop _ ih =>
    cases h' with
    | cons h => cases (ih h).1
    | stop h => exact ih h

end Follows

/-- A call ends as its derivation does. -/
theorem run_eq_of_follows {c : Call} {es : List Evaluation}
    {outcome : Except GraphError (List ResolvedUnit)} (h : g.Follows [] c.task s es outcome t) :
    (g.call c).run s = ending outcome t := by
  obtain ⟨fs, outcome', u, h', hrun⟩ := g.call_derives c s
  obtain ⟨rfl, rfl⟩ := h.unique h'
  exact hrun

end BuildComposition.Graph
