import BuildComposition.Proofs.Graph.Visited
import Mathlib.Logic.Relation

/-!
# Reachability

A call evaluates what its references lead to, directly or through references that evaluated descriptors
have queued.  Where it succeeds nothing is left out, although a descriptor that was visited before is
skipped: whatever was visited is evaluated in the same call or before it, so that its queue is followed
too.

## Main definitions

* `Graph.Requires`: a descriptor has queued a reference that leads to another one
* `Graph.Reaches`: references lead to a descriptor, directly or through others
* `Graph.Series`: calls on one graph that succeed one after the other

## Main results

* `Graph.Follows.reaches`: nothing is evaluated that is not reached
* `Graph.Completes.leadInto`: where references lead, and where queues lead, was visited
* `Graph.Completes.units_eq`: the units are those of the projects that were evaluated
* `Graph.Series.evaluated_iff_reaches`: what was evaluated is exactly what is reached
-/

namespace BuildComposition.Graph

open Relation

variable {μ : Type} (g : Graph μ)

/-- While `p` was evaluated, it has queued a reference that leads to `q`. -/
def Requires (es : List Evaluation) (p q : Path) : Prop :=
  ∃ e ∈ es, e.descriptor = p ∧ ∃ reference ∈ e.queue, g.Leads reference q

/-- References lead to a descriptor, directly or through what evaluated descriptors have queued. -/
def Reaches (es : List Evaluation) (references : List String) (p : Path) : Prop :=
  ∃ reference ∈ references, ∃ q, g.Leads reference q ∧ ReflTransGen (g.Requires es) q p

variable {g}

theorem Requires.mono {es fs : List Evaluation} (h : es ⊆ fs) {p q : Path}
    (hr : g.Requires es p q) : g.Requires fs p q := by
  obtain ⟨e, he, hp, hq⟩ := hr
  exact ⟨e, h he, hp, hq⟩

theorem Reaches.mono {es fs : List Evaluation} {references more : List String} (h : es ⊆ fs)
    (h' : references ⊆ more) {p : Path} (hr : g.Reaches es references p) : g.Reaches fs more p := by
  obtain ⟨reference, hmem, q, hq, hp⟩ := hr
  exact ⟨reference, h' hmem, q, hq, ReflTransGen.mono (fun _ _ => Requires.mono h) _ _ hp⟩

/-- What the queue of an evaluated descriptor reaches is reached from the descriptor. -/
theorem Reaches.through {e : Evaluation} {es : List Evaluation} (he : e ∈ es) {p : Path}
    (h : g.Reaches es e.queue p) : ReflTransGen (g.Requires es) e.descriptor p := by
  obtain ⟨reference, hmem, q, hq, hp⟩ := h
  exact .head ⟨e, he, rfl, reference, hmem, hq⟩ hp

/-- What is closed under requirement and holds where the references lead holds wherever they reach. -/
theorem Reaches.induct {es : List Evaluation} {references : List String} {P : Path → Prop}
    (hstart : ∀ reference ∈ references, ∀ q, g.Leads reference q → P q)
    (hstep : ∀ p q, P p → g.Requires es p q → P q) {p : Path} (h : g.Reaches es references p) :
    P p := by
  obtain ⟨reference, hmem, q, hq, hp⟩ := h
  induction hp with
  | refl => exact hstart reference hmem q hq
  | tail _ hrequires ih => exact hstep _ _ ih hrequires

section

variable {below : List Link} {task : Task} {s t : GraphState μ} {es : List Evaluation}

/-- Nothing is evaluated that the references do not reach. -/
theorem Follows.reaches {outcome : Except GraphError (List ResolvedUnit)}
    (h : g.Follows below task s es outcome t) :
    ∀ e ∈ es, g.Reaches es task.references e.descriptor := by
  induction h with
  | refused | skipped | nil => simp
  | @failed _ _ _ link _ _ _ _ ha =>
    rintro e (_ | ⟨_, ⟨⟩⟩)
    exact ⟨link.reference, by simp [Task.references], link.descriptor, ha.leads, .refl⟩
  | @evaluated below kind _ link _ requests _ _ es _ _ ha _ hr _ ih =>
    rintro e (_ | ⟨_, he⟩)
    · exact ⟨link.reference, by simp [Task.references], link.descriptor, ha.leads, .refl⟩
    · have hqueue := ih e he
      rw [Task.references, hr.required_eq] at hqueue
      have hbelow := (hqueue.mono (List.subset_cons_self _ es) (List.Subset.refl _)).through
        List.mem_cons_self
      exact ⟨link.reference, by simp [Task.references], link.descriptor, ha.leads, hbelow⟩
  | cons _ _ ih ih' =>
    intro e he
    rcases List.mem_append.mp he with he | he
    · exact (ih e he).mono (List.subset_append_left _ _) (by simp [Task.references])
    · exact (ih' e he).mono (List.subset_append_right _ _) (by simp [Task.references])
  | stop _ ih => exact fun e he => (ih e he).mono (List.Subset.refl _) (by simp [Task.references])

/-- Everything that references lead to is among some descriptors. -/
def LeadInto (g : Graph μ) (references : List String) (descriptors : List Path) : Prop :=
  ∀ reference ∈ references, ∃ p ∈ descriptors, g.Leads reference p

theorem LeadInto.mono {references : List String} {descriptors more : List Path}
    (h : g.LeadInto references descriptors) (hsub : descriptors ⊆ more) :
    g.LeadInto references more := by
  intro reference hmem
  obtain ⟨p, hp, hleads⟩ := h reference hmem
  exact ⟨p, hsub hp, hleads⟩

theorem LeadInto.append {references more : List String} {descriptors : List Path}
    (h : g.LeadInto references descriptors) (h' : g.LeadInto more descriptors) :
    g.LeadInto (references ++ more) descriptors := by
  intro reference hmem
  exact (List.mem_append.mp hmem).elim (h reference) (h' reference)

theorem Completes.visited_subset {units : List ResolvedUnit}
    (h : g.Completes below task s es units t) : s.visited ⊆ t.visited := by
  rw [h.follows.visited_eq]
  exact List.subset_append_right _ _

theorem LeadInto.exists_evaluation {references : List String}
    (h : g.LeadInto references (es.map (·.descriptor))) {reference : String}
    (hmem : reference ∈ references) {p : Path} (hleads : g.Leads reference p) :
    ∃ e ∈ es, e.descriptor = p := by
  obtain ⟨q, hq, hleads'⟩ := h reference hmem
  rw [hleads.unique hleads']
  exact List.mem_map.mp hq

/-- Where a call succeeds, everything that its references and the queues lead to was visited. -/
theorem Completes.leadInto {units : List ResolvedUnit} (h : g.Completes below task s es units t) :
    g.LeadInto task.references t.visited ∧ ∀ e ∈ es, g.LeadInto e.queue t.visited := by
  induction h with
  | skipped ha hv => exact ⟨by simpa [LeadInto, Task.references] using ⟨_, hv, ha.leads⟩, by simp⟩
  | @evaluated below kind _ link _ requests frame t es _ u ha hv hr h ih =>
    obtain ⟨hqueue, hbelow⟩ := ih
    rw [Task.references, hr.required_eq] at hqueue
    -- the descriptor was marked before it ran, and a mark is never taken away
    have hself : link.descriptor ∈ u.visited := by
      apply h.visited_subset
      rw [GraphState.visited_descend, hr.visited_eq]
      exact List.mem_cons_self
    refine ⟨by simpa [LeadInto, Task.references] using ⟨_, hself, ha.leads⟩, ?_⟩
    rintro e (_ | ⟨_, he⟩)
    · exact hqueue
    · exact hbelow e he
  | nil => exact ⟨by simp [LeadInto, Task.references], by simp⟩
  | @cons _ _ reference rest _ _ _ _ _ _ _ _ h' ih ih' =>
    obtain ⟨hfirst, hes⟩ := ih
    obtain ⟨hrest, hfs⟩ := ih'
    refine ⟨(hfirst.mono h'.visited_subset).append hrest, fun e he => ?_⟩
    rcases List.mem_append.mp he with he | he
    · exact (hes e he).mono h'.visited_subset
    · exact hfs e he

/-- Projects alone are evaluated where the references of descriptors or of the root are followed. -/
theorem Completes.isProject {units : List ResolvedUnit}
    (h : g.Completes below task s es units t) (hkind : task.kind = .project) :
    ∀ e ∈ es, e.isProject = true := by
  induction h with
  | skipped | nil => simp
  | evaluated _ _ _ _ ih =>
    cases hkind
    rintro e (_ | ⟨_, he⟩)
    · rfl
    · exact ih rfl e he
  | cons _ _ ih ih' =>
    intro e he
    exact (List.mem_append.mp he).elim (ih rfl e) (ih' rfl e)

/-- An override that nothing was visited before is evaluated, and its queue is followed. -/
theorem Completes.override_cases {position : Nat} {reference : String} {units : List ResolvedUnit}
    (h : g.Completes below (.one .override position reference) s es units t)
    (hs : s.visited = []) :
    ∃ link requests fs s', link.reference = reference ∧ g.Admits below link ∧
      es = link.evaluation below.length .override requests :: fs ∧
      g.Completes (below ++ [link])
        (.all 1 (link.evaluation below.length .override requests).queue) s' fs units t := by
  cases h with
  | skipped _ hv => simp [hs] at hv -- nothing was visited before
  | @evaluated _ _ _ link _ requests frame t es _ _ ha _ hr h =>
    refine ⟨link, requests, es, t.descend link.reference frame.required, rfl, ha, rfl, ?_⟩
    rw [← hr.required_eq]
    exact h

/-- The units of a call are those of the projects that it has evaluated, in this order. -/
theorem Completes.units_eq {units : List ResolvedUnit} (h : g.Completes below task s es units t) :
    units.map (·.descriptor) = (es.filter Evaluation.isProject).map (·.descriptor) := by
  induction h with
  | skipped | nil => rfl
  | @evaluated _ kind =>
    rename_i ih
    cases kind with
    | override => simpa [unitOf, Link.evaluation, Evaluation.isProject] using ih
    | project => simpa [unitOf, Link.evaluation, Evaluation.isProject] using ih
  | cons _ _ ih ih' => rw [List.map_append, List.filter_append, List.map_append, ih, ih']

end

/-! ## Calls one after the other -/

variable (g) in
/-- Calls on one graph succeed one after the other: the references they were made with, what they have
evaluated, their units, and what was visited.  Between two calls memory and session may change. -/
inductive Series : List String → List Evaluation → List ResolvedUnit → List Path → Prop
  | nil : Series [] [] [] []
  | call {references es units visited s c fs more t} (h : Series references es units visited)
      (hs : s.visited = visited) (h' : g.Completes [] (Call.task c) s fs more t) :
      Series (references ++ c.task.references) (es ++ fs) (units ++ more) t.visited

namespace Series

variable {references : List String} {es : List Evaluation} {units : List ResolvedUnit}
  {visited : List Path}

theorem visited_eq (h : g.Series references es units visited) :
    visited = (es.map (·.descriptor)).reverse := by
  induction h with
  | nil => rfl
  | call _ hs h' ih => rw [h'.follows.visited_eq, hs, ih, List.map_append, List.reverse_append]

theorem mem_visited_iff (h : g.Series references es units visited) {p : Path} :
    p ∈ visited ↔ ∃ e ∈ es, e.descriptor = p := by
  rw [h.visited_eq]
  simp

/-- No descriptor is evaluated twice, also not by different calls. -/
theorem nodup (h : g.Series references es units visited) : (es.map (·.descriptor)).Nodup := by
  rw [← List.nodup_reverse, ← h.visited_eq]
  induction h with
  | nil => exact List.nodup_nil
  | call _ hs h' ih => exact h'.follows.nodup_visited (hs ▸ ih)

theorem leadInto (h : g.Series references es units visited) :
    g.LeadInto references visited ∧ ∀ e ∈ es, g.LeadInto e.queue visited := by
  induction h with
  | nil => exact ⟨by simp [LeadInto], by simp⟩
  | call _ hs h' ih =>
    rw [← hs] at ih
    obtain ⟨hdeclared, hes⟩ := ih
    obtain ⟨hcall, hfs⟩ := h'.leadInto
    refine ⟨(hdeclared.mono h'.visited_subset).append hcall, fun e he => ?_⟩
    rcases List.mem_append.mp he with he | he
    · exact (hes e he).mono h'.visited_subset
    · exact hfs e he

theorem reaches (h : g.Series references es units visited) :
    ∀ e ∈ es, g.Reaches es references e.descriptor := by
  induction h with
  | nil => simp
  | call _ _ h' ih =>
    intro e he
    rcases List.mem_append.mp he with he | he
    · exact (ih e he).mono (List.subset_append_left _ _) (List.subset_append_left _ _)
    · exact (h'.follows.reaches e he).mono (List.subset_append_right _ _)
        (List.subset_append_right _ _)

/-- What was evaluated is exactly what the references reach. -/
theorem evaluated_iff_reaches (h : g.Series references es units visited) {p : Path} :
    (∃ e ∈ es, e.descriptor = p) ↔ g.Reaches es references p := by
  constructor
  · rintro ⟨e, he, rfl⟩
    exact h.reaches e he
  · rw [← h.mem_visited_iff]
    obtain ⟨hdeclared, hqueues⟩ := h.leadInto
    -- what was visited contains where the references lead and is closed under requirement
    refine Reaches.induct (fun reference hmem q hq => ?_) (fun p q _ hrequires => ?_)
    · obtain ⟨q', hq', hleads⟩ := hdeclared reference hmem
      exact hleads.unique hq ▸ hq'
    · obtain ⟨e, he, -, reference, hmem, hq⟩ := hrequires
      obtain ⟨q', hq', hleads⟩ := hqueues e he reference hmem
      exact hleads.unique hq ▸ hq'

theorem units_eq (h : g.Series references es units visited) :
    units.map (·.descriptor) = (es.filter Evaluation.isProject).map (·.descriptor) := by
  induction h with
  | nil => rfl
  | call _ _ h' ih => rw [List.map_append, List.filter_append, List.map_append, ih, h'.units_eq]

theorem leads (h : g.Series references es units visited) :
    ∀ e ∈ es, g.Leads e.reference e.descriptor := by
  induction h with
  | nil => simp
  | call _ _ h' ih =>
    intro e he
    exact (List.mem_append.mp he).elim (ih e) (h'.follows.leads e)

/-- The root is not evaluated. -/
theorem apart (h : g.Series references es units visited) :
    ∀ e ∈ es, ∀ l ∈ g.root, l.descriptor.agrees e.descriptor = false := by
  induction h with
  | nil => simp
  | call _ _ h' ih =>
    intro e he l hl
    rcases List.mem_append.mp he with he | he
    · exact ih e he l hl
    · exact h'.follows.apart e he l (by simpa [links] using hl)

end Series

end BuildComposition.Graph
