import BuildComposition.Proofs.Graph.CycleDetection
import Mathlib.Logic.Function.Iterate

/-!
# Following references step by step

A call on a graph is a recursion over places and queues.  Here it is a loop over an agenda: the references
that are still to be followed, each with the place where it was queued.  What a descriptor queues is put in
front of the agenda.  A step deals with one reference, and runs at most one descriptor.

A descriptor need not return.  The loop stays where it is then, so that it ends exactly if every descriptor
that it comes to returns.  A call ends as the loop does, and the loop takes no more steps than there are
references in the call and in the queues of what it evaluates.

## Main definitions

* `Pending`, `Progress`: references that are still to be followed, and how far a call has come
* `Graph.step`: one step of the loop

## Main results

* `Graph.iterate_step_of_not_returns`: the loop does not get past a descriptor that does not return
* `Graph.Follows.steps`: the steps that follow a task
* `Graph.exists_steps`: a call ends as the loop does
-/

namespace BuildComposition

variable {μ : Type}

/-- A reference that is still to be followed, with the place where it was queued. -/
structure Pending where
  below : List Link
  kind : DescriptorKind
  position : Nat
  reference : String

/-- The references of a task that is followed at a place. -/
def Task.pending (below : List Link) : Task → List Pending
  | one kind position reference => [⟨below, kind, position, reference⟩]
  | all position references =>
    (references.zipIdx position).map fun (reference, position) =>
      ⟨below, .project, position, reference⟩

@[simp] theorem Task.pending_all_nil (below : List Link) (position : Nat) :
    (Task.all position []).pending below = [] := rfl

@[simp] theorem Task.pending_all_cons (below : List Link) (position : Nat) (reference : String)
    (rest : List String) : (Task.all position (reference :: rest)).pending below =
      ⟨below, .project, position, reference⟩ :: (Task.all (position + 1) rest).pending below := rfl

/-- How far a call has come. -/
inductive Progress (μ : Type) where
  /-- References are still to be followed; these units were found so far. -/
  | under (agenda : List Pending) (units : List ResolvedUnit) (state : GraphState μ)
  | ended (outcome : Except GraphError (List ResolvedUnit)) (state : GraphState μ)

namespace Graph

variable (g : Graph μ)

/-- The session in which a descriptor starts to run. -/
def opened (kind : DescriptorKind) (depth : Nat) (link : Link) (s : GraphState μ) : Session :=
  let evaluating := Event.evaluating link.reference link.descriptor depth
  (s.session.note evaluating (change?_evaluating _ _ _)).openFrame kind

/-- One step: the first reference of the agenda is refused, or skipped, or its descriptor runs.  Of a
descriptor it is known whether it returns. -/
def step (returns : Path → μ → Session → Bool) : Progress μ → Progress μ
  | .ended outcome s => .ended outcome s
  | .under [] units s => .ended (.ok units) s
  | .under (⟨below, kind, position, reference⟩ :: rest) units s =>
    let resolved := g.resolvePath reference
    match g.evaluator.find? resolved with
    | none => .ended (.error (.notFound reference resolved position (g.chain below))) s
    | some descriptor =>
      if (g.links below).any (·.descriptor.agrees descriptor) then
        .ended (.error (.cycle (g.chain below ++ [reference]))) s
      else if g.maxDepth ≤ below.length then
        .ended (.error (.tooDeep g.maxDepth (g.chain below ++ [reference]))) s
      else if descriptor ∈ s.visited then
        .under rest units (s.note (.skipped reference) (change?_skipped reference))
      else
        let link := ⟨reference, descriptor⟩
        if returns descriptor s.memory (opened kind below.length link s) then
          match g.enter kind below.length link s with
          | (.error e, t) => .ended (.error (.descriptor reference position (g.chain below) e)) t
          | (.ok frame, t) =>
            .under ((Task.all 1 frame.required).pending (below ++ [link]) ++ rest)
              (units ++ (unitOf kind below link frame).toList) (t.descend reference frame.required)
        -- the descriptor runs for ever
        else .under (⟨below, kind, position, reference⟩ :: rest) units s

/-- What has come of a call after a task, where other references are still to be followed. -/
def after (rest : List Pending) (units : List ResolvedUnit) (s : GraphState μ) :
    Except GraphError (List ResolvedUnit) → Progress μ
  | .ok more => .under rest (units ++ more) s
  | .error e => .ended (.error e) s

/-- How a call starts. -/
def start (c : Call) (s : GraphState μ) : Progress μ := .under (c.task.pending []) [] s

variable {g} {returns : Path → μ → Session → Bool} {below : List Link} {kind : DescriptorKind}
  {position : Nat} {rest : List Pending} {units : List ResolvedUnit} {s t : GraphState μ}

@[simp] theorem iterate_step_ended (outcome : Except GraphError (List ResolvedUnit)) (n : Nat) :
    (g.step returns)^[n] (.ended outcome s) = .ended outcome s :=
  Function.iterate_fixed rfl n

/-! ## Steps -/

theorem step_refused {reference : String} {e : GraphError} (h : g.Refuses below position reference e) :
    g.step returns (.under (⟨below, kind, position, reference⟩ :: rest) units s) =
      .ended (.error e) s := by
  cases h with
  | notFound hfind => simp only [step, hfind]
  | @cycle descriptor link hleads hlink hagrees =>
    have hcycle : (g.links below).any (·.descriptor.agrees descriptor) = true :=
      List.any_eq_true.mpr ⟨link, hlink, hagrees⟩
    simp only [step, show g.evaluator.find? (g.resolvePath reference) = some descriptor from hleads,
      hcycle, if_true]
  | @tooDeep descriptor hleads hapart hdepth =>
    have hcycle : (g.links below).any (·.descriptor.agrees descriptor) = false := by
      simpa using hapart
    simp only [step, show g.evaluator.find? (g.resolvePath reference) = some descriptor from hleads,
      hcycle, hdepth, if_true, Bool.false_eq_true, if_false]

/-- A reference that is admitted is looked up among the visited descriptors. -/
theorem step_admitted {link : Link} (ha : g.Admits below link) :
    g.step returns (.under (⟨below, kind, position, link.reference⟩ :: rest) units s) =
      if link.descriptor ∈ s.visited then .under rest units (s.note (.skipped link.reference))
      else if returns link.descriptor s.memory (opened kind below.length link s) then
        match g.enter kind below.length link s with
        | (.error e, t) => .ended (.error (.descriptor link.reference position (g.chain below) e)) t
        | (.ok frame, t) =>
          .under ((Task.all 1 frame.required).pending (below ++ [link]) ++ rest)
            (units ++ (unitOf kind below link frame).toList) (t.descend link.reference frame.required)
      else .under (⟨below, kind, position, link.reference⟩ :: rest) units s := by
  have hcycle : (g.links below).any (·.descriptor.agrees link.descriptor) = false := by
    simpa using ha.apart
  have hdepth : ¬g.maxDepth ≤ below.length := Nat.not_le.mpr ha.depth_lt
  simp only [step, show g.evaluator.find? (g.resolvePath link.reference) = some link.descriptor from
    ha.leads, hcycle, hdepth, Bool.false_eq_true, if_false]

/-- The loop does not get past a descriptor that does not return. -/
theorem iterate_step_of_not_returns {link : Link} (ha : g.Admits below link)
    (hv : link.descriptor ∉ s.visited)
    (hreturns : returns link.descriptor s.memory (opened kind below.length link s) = false)
    (n : Nat) :
    (g.step returns)^[n] (.under (⟨below, kind, position, link.reference⟩ :: rest) units s) =
      .under (⟨below, kind, position, link.reference⟩ :: rest) units s := by
  apply Function.iterate_fixed
  rw [step_admitted ha, if_neg hv, hreturns]
  rfl

/-! ## Tasks -/

/-- The loop follows a task that is at the front of the agenda, in no more steps than there are references
in the task and in the queues of what is evaluated. -/
theorem Follows.steps {task : Task} {es : List Evaluation}
    {outcome : Except GraphError (List ResolvedUnit)} (h : g.Follows below task s es outcome t)
    (hreturns : ∀ path memory session, returns path memory session = true) (rest : List Pending)
    (units : List ResolvedUnit) :
    ∃ n ≤ task.references.length + (es.flatMap (·.queue)).length,
      (g.step returns)^[n] (.under (task.pending below ++ rest) units s) =
        after rest units t outcome := by
  induction h generalizing rest units with
  | refused h => exact ⟨1, by simp [Task.references], step_refused h⟩
  | skipped ha hv =>
    refine ⟨1, by simp [Task.references], (step_admitted ha).trans ?_⟩
    rw [if_pos hv, after, List.append_nil]
    rfl
  | failed ha hv hr =>
    refine ⟨1, by simp [Task.references], (step_admitted ha).trans ?_⟩
    rw [if_neg hv, hreturns, if_pos rfl, hr.enter_eq, after]
  | @evaluated below kind position link s requests frame t es outcome u ha hv hr _ ih =>
    obtain ⟨n, hn, hsteps⟩ := ih rest (units ++ (unitOf kind below link frame).toList)
    have hfirst : g.step returns
        (.under ((Task.one kind position link.reference).pending below ++ rest) units s) =
          .under ((Task.all 1 frame.required).pending (below ++ [link]) ++ rest)
            (units ++ (unitOf kind below link frame).toList)
            (t.descend link.reference frame.required) := by
      refine (step_admitted ha).trans ?_
      rw [if_neg hv, hreturns, if_pos rfl, hr.enter_eq]
      rfl
    refine ⟨n + 1, ?_, ?_⟩
    · rw [Task.references, hr.required_eq] at hn
      rw [Task.references, List.flatMap_cons, List.length_append, List.length_singleton]
      omega
    · rw [Function.iterate_succ_apply, hfirst, hsteps]
      cases outcome with
      | ok more => rw [after, Except.map, after, List.append_assoc]
      | error e => rfl
  | nil => exact ⟨0, Nat.zero_le _, by simp [after]⟩
  | @cons below position reference references _ es first _ fs outcome u _ _ ih ih' =>
    obtain ⟨m, hm, hfirst⟩ := ih ((Task.all (position + 1) references).pending below ++ rest) units
    obtain ⟨n, hn, hrest⟩ := ih' rest (units ++ first)
    refine ⟨n + m, ?_, ?_⟩
    · simp only [Task.references, List.length_cons, List.length_nil, List.flatMap_append,
        List.length_append] at hm hn ⊢
      omega
    · rw [Function.iterate_add_apply, Task.pending_all_cons, List.cons_append]
      rw [Task.pending, List.singleton_append] at hfirst
      rw [hfirst, after, hrest]
      cases outcome with
      | ok more => rw [after, Except.map, after, List.append_assoc]
      | error e => rfl
  | @stop below position reference references _ _ e _ _ ih =>
    obtain ⟨m, hm, hfirst⟩ := ih ((Task.all (position + 1) references).pending below ++ rest) units
    refine ⟨m, ?_, hfirst⟩
    simp only [Task.references, List.length_cons, List.length_nil] at hm ⊢
    omega

/-- Where every descriptor returns the loop ends, and it ends as the call does. -/
theorem exists_steps (hreturns : ∀ path memory session, returns path memory session = true) (c : Call)
    (s : GraphState μ) :
    ∃ n outcome t, (g.step returns)^[n] (start c s) = .ended outcome t ∧
      (g.call c).run s = ending outcome t ∧
      n ≤ c.task.references.length + ((s.evaluated t).flatMap (·.queue)).length + 1 := by
  obtain ⟨es, outcome, t, hfollows, hrun⟩ := g.call_derives c s
  obtain ⟨n, hn, hsteps⟩ := hfollows.steps hreturns [] []
  rw [List.append_nil] at hsteps
  refine ⟨n + 1, outcome, t, ?_, hrun, ?_⟩
  · rw [Function.iterate_succ_apply', start, hsteps]
    cases outcome <;> rfl
  · rw [hfollows.evaluated_eq]
    omega

end Graph

end BuildComposition
