import BuildComposition.Graph
import BuildComposition.Proofs.Session.Evaluations

/-!
# What following references does

The calls of a graph are functions in a monad.  Here is the same as a relation, with one rule for each
thing that can happen to a reference, and with the evaluations that happen as an index.  Every call has
a derivation, so that what holds of all calls is one induction on derivations.

## Main definitions

* `Graph.Leads`: where a reference leads
* `Graph.Refuses`, `Graph.Admits`: the checks that come before the visited descriptors are looked at
* `Graph.Enters`: a descriptor runs, with everything that is known about what it leaves
* `Graph.Follows`: following references leads from one state to an outcome and another state
* `Graph.Completes`: the same where it succeeds

## Main results

* `Graph.visit_derives`, `Graph.call_derives`: every call has a derivation
* `Graph.enter_enters`: what a descriptor leaves, whatever it does
-/

namespace BuildComposition

variable {μ : Type}

namespace GraphState

/-- Notes an event in the session. -/
def note (s : GraphState μ) (e : Event) (h : e.change? = none := by rfl) : GraphState μ :=
  { s with session := s.session.note e h }

/-- Notes that the queue of a descriptor is followed, unless it is empty. -/
def descend (s : GraphState μ) (reference : String) (queue : List String) : GraphState μ :=
  if queue.isEmpty then s else s.note (.descending reference queue.length)

@[simp] theorem visited_descend (s : GraphState μ) (reference : String) (queue : List String) :
    (s.descend reference queue).visited = s.visited := by
  unfold descend
  split <;> rfl

/-- The descent is noted and nothing else. -/
theorem journal_descend (s : GraphState μ) (reference : String) (queue : List String) :
    ∃ noted, (s.descend reference queue).session.journal = s.session.journal ++ noted ∧
      ∀ e ∈ noted, ∃ count, e = .descending reference count := by
  unfold descend
  split
  · exact ⟨[], by simp, by simp⟩
  · exact ⟨[.descending reference queue.length], rfl, by simp⟩

end GraphState

/-- The evaluation of a descriptor that a reference has led to. -/
def Link.evaluation (link : Link) (depth : Nat) (kind : DescriptorKind)
    (requests : List Request) : Evaluation :=
  ⟨link.reference, link.descriptor, depth, kind, requests⟩

/-- What is left to follow at a place. -/
inductive Task where
  | one (kind : DescriptorKind) (position : Nat) (reference : String)
  /-- References in order, the first of which is at a position. -/
  | all (position : Nat) (references : List String)

/-- The references of a task. -/
def Task.references : Task → List String
  | one _ _ reference => [reference]
  | all _ references => references

/-- The kind of the descriptors that a task starts with. -/
def Task.kind : Task → DescriptorKind
  | one kind _ _ => kind
  | all _ _ => .project

namespace Graph

variable (g : Graph μ)

/-- The reference leads to the descriptor. -/
def Leads (reference : String) (descriptor : Path) : Prop :=
  g.evaluator.find? (g.resolvePath reference) = some descriptor

/-- The reference is refused, whatever was visited before. -/
inductive Refuses (below : List Link) (position : Nat) (reference : String) : GraphError → Prop
  | notFound (h : g.evaluator.find? (g.resolvePath reference) = none) :
      Refuses below position reference
        (.notFound reference (g.resolvePath reference) position (g.chain below))
  | cycle {descriptor : Path} {link : Link} (h : g.Leads reference descriptor)
      (hlink : link ∈ g.links below) (hagrees : link.descriptor.agrees descriptor = true) :
      Refuses below position reference (.cycle (g.chain below ++ [reference]))
  | tooDeep {descriptor : Path} (h : g.Leads reference descriptor)
      (hapart : ∀ link ∈ g.links below, link.descriptor.agrees descriptor = false)
      (hdepth : g.maxDepth ≤ below.length) :
      Refuses below position reference (.tooDeep g.maxDepth (g.chain below ++ [reference]))

/-- The reference of a link leads to its descriptor, which may be required at a place. -/
structure Admits (below : List Link) (link : Link) : Prop where
  leads : g.Leads link.reference link.descriptor
  apart : ∀ l ∈ g.links below, l.descriptor.agrees link.descriptor = false
  depth_lt : below.length < g.maxDepth

theorem change?_skipped (reference : String) : (Event.skipped reference).change? = none := rfl

theorem change?_evaluating (reference : String) (descriptor : Path) (depth : Nat) :
    (Event.evaluating reference descriptor depth).change? = none := rfl

/-- Marks a descriptor as visited and runs it. -/
def enter (kind : DescriptorKind) (depth : Nat) (link : Link) (s : GraphState μ) :
    Except ScriptError Frame × GraphState μ :=
  g.runDescriptor link.descriptor kind
    (({ s with visited := link.descriptor :: s.visited } : GraphState μ).note
      (.evaluating link.reference link.descriptor depth))

/-- Entering a descriptor has a result and leads to another state.  Whatever the descriptor does, its
requests are all that is noted, and the frame is what they make of a fresh one. -/
structure Enters (kind : DescriptorKind) (depth : Nat) (link : Link) (s : GraphState μ)
    (requests : List Request) (result : Except ScriptError Frame) (t : GraphState μ) : Prop where
  enter_eq : g.enter kind depth link s = (result, t)
  visited_eq : t.visited = link.descriptor :: s.visited
  idle : t.session.frame = none
  frame_eq : ∀ frame, result = .ok frame → frame = (link.evaluation depth kind requests).frame
  journal_eq : ∃ chunk, t.session.journal = s.session.journal ++
      .evaluating link.reference link.descriptor depth :: .opened kind :: (chunk ++ [.closed]) ∧
    chunk.filterMap Event.request? = requests ∧ ∀ e ∈ chunk, e.Permitted kind

/-- What a descriptor leaves in the queue are the references that it has requested. -/
theorem Enters.required_eq {g : Graph μ} {kind : DescriptorKind} {depth : Nat} {link : Link}
    {s t : GraphState μ} {requests : List Request} {frame : Frame}
    (h : g.Enters kind depth link s requests (.ok frame) t) :
    frame.required = (link.evaluation depth kind requests).queue := by
  rw [h.frame_eq frame rfl, Evaluation.required_frame]

/-- Following a task at a place leads from a state to an outcome and another state; on the way there
are evaluations, in the order in which they begin. -/
inductive Follows : List Link → Task → GraphState μ → List Evaluation →
    Except GraphError (List ResolvedUnit) → GraphState μ → Prop
  | refused {below kind position reference s e} (h : g.Refuses below position reference e) :
      Follows below (.one kind position reference) s [] (.error e) s
  | skipped {below kind position link s} (ha : g.Admits below link)
      (hv : link.descriptor ∈ s.visited) :
      Follows below (.one kind position link.reference) s [] (.ok [])
        (s.note (.skipped link.reference))
  | failed {below kind position link s requests e t} (ha : g.Admits below link)
      (hv : link.descriptor ∉ s.visited)
      (hr : g.Enters kind below.length link s requests (.error e) t) :
      Follows below (.one kind position link.reference) s
        [link.evaluation below.length kind requests]
        (.error (.descriptor link.reference position (g.chain below) e)) t
  | evaluated {below kind position link s requests frame t es outcome u}
      (ha : g.Admits below link) (hv : link.descriptor ∉ s.visited)
      (hr : g.Enters kind below.length link s requests (.ok frame) t)
      (h : Follows (below ++ [link]) (.all 1 frame.required)
        (t.descend link.reference frame.required) es outcome u) :
      Follows below (.one kind position link.reference) s
        (link.evaluation below.length kind requests :: es)
        (outcome.map ((unitOf kind below link frame).toList ++ ·)) u
  | nil {below position s} : Follows below (.all position []) s [] (.ok []) s
  | cons {below position reference rest s es units t fs outcome u}
      (h : Follows below (.one .project position reference) s es (.ok units) t)
      (h' : Follows below (.all (position + 1) rest) t fs outcome u) :
      Follows below (.all position (reference :: rest)) s (es ++ fs) (outcome.map (units ++ ·)) u
  | stop {below position reference rest s es e t}
      (h : Follows below (.one .project position reference) s es (.error e) t) :
      Follows below (.all position (reference :: rest)) s es (.error e) t

/-- Following a task at a place succeeds, with these evaluations on the way and with these units. -/
inductive Completes : List Link → Task → GraphState μ → List Evaluation → List ResolvedUnit →
    GraphState μ → Prop
  | skipped {below kind position link s} (ha : g.Admits below link)
      (hv : link.descriptor ∈ s.visited) :
      Completes below (.one kind position link.reference) s [] [] (s.note (.skipped link.reference))
  | evaluated {below kind position link s requests frame t es units u}
      (ha : g.Admits below link) (hv : link.descriptor ∉ s.visited)
      (hr : g.Enters kind below.length link s requests (.ok frame) t)
      (h : Completes (below ++ [link]) (.all 1 frame.required)
        (t.descend link.reference frame.required) es units u) :
      Completes below (.one kind position link.reference) s
        (link.evaluation below.length kind requests :: es)
        ((unitOf kind below link frame).toList ++ units) u
  | nil {below position s} : Completes below (.all position []) s [] [] s
  | cons {below position reference rest s es units t fs more u}
      (h : Completes below (.one .project position reference) s es units t)
      (h' : Completes below (.all (position + 1) rest) t fs more u) :
      Completes below (.all position (reference :: rest)) s (es ++ fs) (units ++ more) u

variable {g}

theorem Completes.follows {below : List Link} {task : Task} {s t : GraphState μ}
    {es : List Evaluation} {units : List ResolvedUnit} (h : g.Completes below task s es units t) :
    g.Follows below task s es (.ok units) t := by
  induction h with
  | skipped ha hv => exact .skipped ha hv
  | evaluated ha hv hr _ ih => exact .evaluated ha hv hr ih
  | nil => exact .nil
  | cons _ _ ih ih' => exact .cons ih ih'

theorem Follows.completes_of_eq_ok {below : List Link} {task : Task} {s t : GraphState μ}
    {es : List Evaluation} {outcome : Except GraphError (List ResolvedUnit)}
    (h : g.Follows below task s es outcome t) {units : List ResolvedUnit}
    (ho : outcome = .ok units) : g.Completes below task s es units t := by
  induction h generalizing units with
  | refused | failed | stop => cases ho
  | skipped ha hv =>
    cases ho
    exact .skipped ha hv
  | @evaluated _ _ _ _ _ _ _ _ _ outcome _ ha hv hr _ ih =>
    cases outcome <;> cases ho
    exact .evaluated ha hv hr (ih rfl)
  | nil =>
    cases ho
    exact .nil
  | @cons _ _ _ _ _ _ _ _ _ outcome _ _ _ ih ih' =>
    cases outcome <;> cases ho
    exact .cons (ih rfl) (ih' rfl)

theorem Follows.completes {below : List Link} {task : Task} {s t : GraphState μ}
    {es : List Evaluation} {units : List ResolvedUnit}
    (h : g.Follows below task s es (.ok units) t) : g.Completes below task s es units t :=
  h.completes_of_eq_ok rfl

/-! ## Every call has a derivation -/

/-- Entering a descriptor opens a frame for it and closes the frame again, and in between there are only
requests: this is all that is known of an evaluator. -/
theorem exists_performs_of_enter {kind : DescriptorKind} {depth : Nat} {link : Link}
    {s t : GraphState μ} {result : Except ScriptError Frame}
    (h : g.enter kind depth link s = (result, t)) :
    ∃ performed : Session,
      Performs ((s.session.note (.evaluating link.reference link.descriptor depth)).openFrame kind)
        performed ∧
      t.visited = link.descriptor :: s.visited ∧ t.session = performed.closeFrame ∧
      ∀ frame, result = .ok frame → performed.frame = some frame := by
  simp only [enter, runDescriptor, GraphState.note] at h
  rcases hrun : g.evaluator.run link.descriptor s.memory
    ((s.session.note (.evaluating link.reference link.descriptor depth)).openFrame kind)
    with ⟨ran, memory, performed⟩
  simp only [hrun, Prod.mk.injEq] at h
  obtain ⟨hresult, rfl⟩ := h
  refine ⟨performed.session, performed.performs, rfl, rfl, ?_⟩
  rintro frame rfl
  cases ran with
  | error e => cases hresult
  | ok =>
    cases hframe : performed.session.frame with
    | none =>
      rw [hframe] at hresult
      cases hresult
    | some f =>
      rw [hframe] at hresult
      cases hresult
      rfl

/-- What a descriptor leaves, whatever it does. -/
theorem enter_enters {kind : DescriptorKind} {depth : Nat} {link : Link} {s t : GraphState μ}
    {result : Except ScriptError Frame} (h : g.enter kind depth link s = (result, t)) :
    ∃ requests, g.Enters kind depth link s requests result t := by
  obtain ⟨performed, hperforms, hvisited, hsession, hresult⟩ := exists_performs_of_enter h
  obtain ⟨chunk, hj, hf, hp⟩ := hperforms.exists_chunk rfl
  refine ⟨chunk.filterMap Event.request?, h, hvisited, by rw [hsession]; rfl, ?_, chunk, ?_, rfl, hp⟩
  · intro frame hframe
    have hperformed := hresult frame hframe
    rw [hf, Option.some.injEq] at hperformed
    exact hperformed.symm
  · rw [hsession, Session.journal_closeFrame, hj]
    simp [Session.note]

/-- What a descriptor leaves was made by the requests that it has noted. -/
theorem Enters.exists_performs {kind : DescriptorKind} {depth : Nat} {link : Link}
    {s t : GraphState μ} {requests : List Request} {result : Except ScriptError Frame}
    (h : g.Enters kind depth link s requests result t) :
    ∃ (opened performed : Session) (chunk : List Event),
      opened = (s.session.note (.evaluating link.reference link.descriptor depth)).openFrame kind ∧
      Performs opened performed ∧ performed.journal = opened.journal ++ chunk ∧
      chunk.filterMap Event.request? = requests ∧ t.session = performed.closeFrame ∧
      ∀ frame, result = .ok frame → performed.frame = some frame := by
  obtain ⟨performed, hperforms, -, hsession, hresult⟩ := exists_performs_of_enter h.enter_eq
  obtain ⟨chunk, hj, hrequests, -⟩ := h.journal_eq
  refine ⟨_, performed, chunk, rfl, hperforms, ?_, hrequests, hsession, hresult⟩
  rw [hsession, Session.journal_closeFrame] at hj
  rw [← List.append_cancel_right_eq _ [Event.closed], hj]
  simp [Session.note]

/-- The end of a call with an outcome in a state. -/
def ending {ε σ α : Type} (outcome : Except ε α) (t : σ) : EStateM.Result ε σ α :=
  match outcome with
  | .ok a => .ok a t
  | .error e => .error e t

variable (g) in
/-- The end of a call is that of a derivation. -/
def Derives (below : List Link) (task : Task) (s : GraphState μ)
    (result : EStateM.Result GraphError (GraphState μ) (List ResolvedUnit)) : Prop :=
  ∃ es outcome t, g.Follows below task s es outcome t ∧ result = ending outcome t

theorem inOrder_derives {visit : Nat → String → Visit μ (List ResolvedUnit)} {below : List Link}
    (hvisit : ∀ position reference s,
      g.Derives below (.one .project position reference) s ((visit position reference).run s))
    (position : Nat) (references : List String) (s : GraphState μ) :
    g.Derives below (.all position references) s ((inOrder visit position references).run s) := by
  induction references generalizing position s with
  | nil => exact ⟨_, _, _, .nil, rfl⟩
  | cons reference rest ih =>
    obtain ⟨es, outcome, t, h, hrun⟩ := hvisit position reference s
    simp only [inOrder, EStateM.run_bind, hrun]
    cases outcome with
    -- the references after one that fails are not looked at
    | error e => exact ⟨_, _, _, .stop h, rfl⟩
    | ok units =>
      obtain ⟨fs, outcome, u, h', hrest⟩ := ih (position + 1) t
      refine ⟨_, _, _, .cons h h', ?_⟩
      simp only [ending, hrest]
      cases outcome <;> rfl

theorem evaluate_derives {follow : List Link → List String → Visit μ (List ResolvedUnit)}
    {below : List Link} {link : Link}
    (hfollow : ∀ references s,
      g.Derives (below ++ [link]) (.all 1 references) s
        ((follow (below ++ [link]) references).run s))
    (kind : DescriptorKind) (position : Nat) {s : GraphState μ} (ha : g.Admits below link)
    (hv : link.descriptor ∉ s.visited) :
    g.Derives below (.one kind position link.reference) s
      ((g.evaluate follow below kind position link).run s) := by
  rcases henter : g.enter kind below.length link s with ⟨result, t⟩
  obtain ⟨requests, hr⟩ := enter_enters henter
  simp only [enter, GraphState.note] at henter
  simp only [evaluate, EStateM.run_bind, EStateM.run_modify, note, EStateM.run_get, henter,
    EStateM.run_set]
  cases result with
  | error e => exact ⟨_, _, _, .failed ha hv hr, rfl⟩
  | ok frame =>
    obtain ⟨es, outcome, u, h, hu⟩ :=
      hfollow frame.required (t.descend link.reference frame.required)
    refine ⟨_, _, _, .evaluated ha hv hr h, ?_⟩
    by_cases hq : frame.required = []
    · -- nothing is queued, so that following the queue ends at once
      simp only [GraphState.descend, hq, List.isEmpty_nil, if_true] at h hu ⊢
      cases h
      simp [ending, Except.map]
    · simp only [GraphState.descend, List.isEmpty_iff, hq, if_false] at hu ⊢
      simp only [EStateM.run_bind, EStateM.run_modify]
      simp only [GraphState.note] at hu
      rw [hu]
      cases outcome <;> rfl

/-- Every visit has a derivation. -/
theorem visit_derives {remaining : Nat} {below : List Link}
    (hdepth : below.length + remaining = g.maxDepth) (kind : DescriptorKind) (position : Nat)
    (reference : String) (s : GraphState μ) :
    g.Derives below (.one kind position reference) s
      ((g.visit remaining below kind position reference).run s) := by
  -- the induction is on the depth that is left, and the place grows by a link with every step
  induction remaining using Nat.strongRecOn generalizing below kind position reference s with
  | ind remaining ih =>
    rw [visit.eq_def]
    cases hfind : g.evaluator.find? (g.resolvePath reference) with
    -- the checks in their order: the file, the cycle, the depth, and then the visited descriptors
    | none =>
      simp only [hfind]
      exact ⟨_, _, _, .refused (.notFound hfind), rfl⟩
    | some descriptor =>
      simp only [hfind]
      by_cases hcycle : (g.links below).any (·.descriptor.agrees descriptor) = true
      · obtain ⟨link, hlink, hagrees⟩ := List.any_eq_true.mp hcycle
        rw [if_pos hcycle]
        exact ⟨_, _, _, .refused (.cycle hfind hlink hagrees), rfl⟩
      have hapart : ∀ l ∈ g.links below, l.descriptor.agrees descriptor = false := by
        simpa using hcycle
      rw [if_neg hcycle]
      cases remaining with
      | zero => exact ⟨_, _, _, .refused (.tooDeep hfind hapart (by omega)), rfl⟩
      | succ remaining =>
        have ha : g.Admits below ⟨reference, descriptor⟩ := ⟨hfind, hapart, by omega⟩
        simp only [EStateM.run_bind, EStateM.run_get, List.contains_iff_mem]
        by_cases hv : descriptor ∈ s.visited
        · simp only [hv, if_true]
          exact ⟨_, _, _, .skipped ha hv, rfl⟩
        · simp only [hv, if_false]
          refine evaluate_derives (fun references s => ?_) kind position ha hv
          exact inOrder_derives (fun position reference s =>
            ih remaining (by omega) (by simp; omega) .project position reference s) 1 references s

/-- A call on a graph. -/
inductive Call where
  | all (references : List String)
  | override (reference : String)

/-- The task of a call. -/
def Call.task : Call → Task
  | .all references => .all 1 references
  | .override reference => .one .override 1 reference

variable (g) in
/-- What a call does. -/
def call : Call → Visit μ (List ResolvedUnit)
  | .all references => g.evaluateAll references
  | .override reference => g.evaluateOverride reference

/-- Every call has a derivation. -/
theorem call_derives (c : Call) (s : GraphState μ) :
    g.Derives [] c.task s ((g.call c).run s) := by
  have hdepth : ([] : List Link).length + g.maxDepth = g.maxDepth := by simp
  cases c with
  | all references => exact inOrder_derives (visit_derives hdepth .project) 1 references s
  | override reference => exact visit_derives hdepth .override 1 reference s

/-- A call that succeeds has a derivation of its units. -/
theorem completes_of_call_ok {c : Call} {s t : GraphState μ} {units : List ResolvedUnit}
    (h : (g.call c).run s = .ok units t) : ∃ es, g.Completes [] c.task s es units t := by
  obtain ⟨es, outcome, u, hf, hrun⟩ := g.call_derives c s
  rw [h] at hrun
  cases outcome <;> cases hrun
  exact ⟨es, hf.completes⟩

/-- A call that fails has a derivation of its error. -/
theorem follows_of_call_error {c : Call} {s t : GraphState μ} {e : GraphError}
    (h : (g.call c).run s = .error e t) : ∃ es, g.Follows [] c.task s es (.error e) t := by
  obtain ⟨es, outcome, u, hf, hrun⟩ := g.call_derives c s
  rw [h] at hrun
  cases outcome <;> cases hrun
  exact ⟨es, hf⟩

end Graph

end BuildComposition
