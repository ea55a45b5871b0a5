import BuildComposition.Proofs.Graph.Visited

/-!
# Trails to a reference

A call fails at one reference.  On the way to it are evaluations, each of which was led to by a reference
in the queue of the one before, and the failing reference is in the queue of the last one, at a position
that is counted from one.

## Main definitions

* `Task.entries`: the references of a task with their positions
* `Trail`: references lead through evaluations to a reference at a position
* `Graph.Fails`: how a reference fails at a place

## Main results

* `Graph.Follows.exists_trail`: a call that fails does so at the end of a trail
-/

namespace BuildComposition

/-- The references of a task with their positions. -/
def Task.entries : Task → List (String × Nat)
  | one _ position reference => [(reference, position)]
  | all position references => references.zipIdx position

@[simp] theorem Task.map_fst_entries (task : Task) : task.entries.map (·.1) = task.references := by
  cases task with
  | one => rfl
  | all => exact List.zipIdx_map_fst ..

/-- The references that the descriptor has queued, which are numbered from one. -/
def Evaluation.entries (e : Evaluation) : List (String × Nat) := e.queue.zipIdx 1

/-- The link that was followed to the descriptor. -/
def Evaluation.link (e : Evaluation) : Link := ⟨e.reference, e.descriptor⟩

/-- Numbered references lead through some of the evaluations to a reference at a position: the first was
led to by one of them, each later one by a reference in the queue of the one before, and the reference is
at this position in the queue of the last. -/
inductive Trail (es : List Evaluation) :
    List (String × Nat) → List Evaluation → String × Nat → Prop
  | here {entries entry} (h : entry ∈ entries) : Trail es entries [] entry
  | through {entries e position rest entry} (h : (e.reference, position) ∈ entries) (he : e ∈ es)
      (hrest : Trail es e.entries rest entry) : Trail es entries (e :: rest) entry

theorem Trail.mono {es fs : List Evaluation} {entries more : List (String × Nat)}
    {trail : List Evaluation} {entry : String × Nat} (h : Trail es entries trail entry)
    (hes : es ⊆ fs) (hentries : entries ⊆ more) : Trail fs more trail entry := by
  induction h generalizing more with
  | here h => exact .here (hentries h)
  | through h he _ ih => exact .through (hentries h) (hes he) (ih (List.Subset.refl _))

theorem Trail.subset {es : List Evaluation} {entries : List (String × Nat)} {trail : List Evaluation}
    {entry : String × Nat} (h : Trail es entries trail entry) : trail ⊆ es := by
  induction h with
  | here => exact List.nil_subset _
  | through _ he _ ih => exact List.cons_subset.mpr ⟨he, ih⟩

namespace Graph

variable {μ : Type} (g : Graph μ)

/-- The reference fails at a place: it is refused, or the descriptor that it leads to fails. -/
inductive Fails (below : List Link) (position : Nat) (reference : String) : GraphError → Prop
  | refused {e} (h : g.Refuses below position reference e) : Fails below position reference e
  | failed {descriptor cause} (ha : g.Admits below ⟨reference, descriptor⟩) :
      Fails below position reference (.descriptor reference position (g.chain below) cause)

variable {g}

/-- A call that fails does so at the end of a trail, which is no longer than the depth permits. -/
theorem Follows.exists_trail {below : List Link} {task : Task} {s t : GraphState μ}
    {es : List Evaluation} {outcome : Except GraphError (List ResolvedUnit)}
    (h : g.Follows below task s es outcome t) {e : GraphError} (he : outcome = .error e) :
    ∃ trail reference position, Trail es task.entries trail (reference, position) ∧
      g.Fails (below ++ trail.map Evaluation.link) position reference e ∧
      (below.length ≤ g.maxDepth → below.length + trail.length ≤ g.maxDepth) := by
  induction h generalizing e with
  | @refused _ _ position reference _ _ h =>
    -- the reference itself is refused, right at the place
    cases he
    refine ⟨[], reference, position, .here (by simp [Task.entries]), .refused ?_, id⟩
    rwa [List.map_nil, List.append_nil]
  | @failed _ _ position link _ _ _ _ ha =>
    cases he
    refine ⟨[], link.reference, position, .here (by simp [Task.entries]), ?_, id⟩
    rw [List.map_nil, List.append_nil]
    exact .failed ha
  | @evaluated below kind position link _ requests _ _ es outcome _ ha _ hr _ ih =>
    cases outcome <;> cases he
    obtain ⟨trail, reference, index, htrail, hfails, hdepth⟩ := ih rfl
    -- one of the queued references, so that the trail starts with the descriptor that has queued it
    rw [Task.entries, hr.required_eq] at htrail
    have hmem : (link.reference, position) ∈ (Task.one kind position link.reference).entries := by
      simp [Task.entries]
    refine ⟨link.evaluation below.length kind requests :: trail, reference, index,
      .through hmem List.mem_cons_self
        (htrail.mono (List.subset_cons_self _ es) (List.Subset.refl _)), ?_, fun _ => ?_⟩
    · rw [List.append_assoc] at hfails
      exact hfails
    · have hlt := ha.depth_lt
      simp only [List.length_append, List.length_cons, List.length_nil] at hdepth ⊢
      omega
  | skipped | nil => cases he
  | @cons _ _ _ _ _ _ _ _ _ outcome _ _ _ _ ih' =>
    cases outcome <;> cases he
    obtain ⟨trail, reference, index, htrail, hfails⟩ := ih' rfl
    refine ⟨trail, reference, index, htrail.mono (List.subset_append_right _ _) ?_, hfails⟩
    exact List.subset_cons_self _ _
  | stop _ ih =>
    obtain ⟨trail, reference, index, htrail, hfails⟩ := ih he
    refine ⟨trail, reference, index, htrail.mono (List.Subset.refl _) ?_, hfails⟩
    simp [Task.entries]

end Graph

end BuildComposition
