import BuildComposition.Proofs.Graph.Visited
import BuildComposition.Proofs.Session.Declarations

/-!
# Traversals in a journal

While references are followed, the journal takes down what becomes of each of them.  It was skipped, or
its descriptor ran from the opening of its frame to the closing, with nothing but its own requests in
between, and after that the references of its queue were followed.

## Main definitions

* `Evaluation.Runs`: the events while a descriptor runs
* `Evaluation.part`: the part of a journal that belongs to a descriptor and its queue
* `Traverses`: a part of a journal in which references are followed
* `Shows`: a journal shows evaluations, each with its part, and no request outside of them
* `ResolvedUnit.DeclaredBy`: a unit is what an evaluation has declared

## Main results

* `Graph.Completes.traverses`: a call that succeeds is noted as a traversal
* `Graph.Completes.declared`: the units of a call are what its evaluations have declared
-/

namespace BuildComposition

/-! ## Journals -/

/-- Events are the requests of a descriptor while it runs, in order. -/
structure Evaluation.Runs (e : Evaluation) (chunk : List Event) : Prop where
  requests_eq : chunk.filterMap Event.request? = e.requests
  permitted : ∀ event ∈ chunk, event.Permitted e.kind

/-- What is noted before the queue of a descriptor is followed. -/
def descent (reference : String) (queue : List String) : List Event :=
  if queue.isEmpty then [] else [.descending reference queue.length]

/-- What is noted from the beginning of an evaluation on until its queue has been followed. -/
def Evaluation.part (e : Evaluation) (chunk followed : List Event) : List Event :=
  .evaluating e.reference e.descriptor e.depth :: .opened e.kind ::
    (chunk ++ .closed :: (descent e.reference e.queue ++ followed))

/-- In a part of a journal references are followed in order, at a depth.  Each one is skipped, or its
descriptor is evaluated and the queue of that is followed one deeper. -/
inductive Traverses : DescriptorKind → Nat → List String → List Event → List Evaluation → Prop
  | nil {kind depth} : Traverses kind depth [] [] []
  | skipped {kind depth reference rest events es} (h : Traverses kind depth rest events es) :
      Traverses kind depth (reference :: rest) (.skipped reference :: events) es
  | evaluated {e chunk followed fs rest events es} (hchunk : e.Runs chunk)
      (hbelow : Traverses .project (e.depth + 1) e.queue followed fs)
      (h : Traverses e.kind e.depth rest events es) :
      Traverses e.kind e.depth (e.reference :: rest) (e.part chunk followed ++ events)
        (e :: (fs ++ es))

theorem suffix_part (e : Evaluation) (chunk followed : List Event) :
    followed <:+ e.part chunk followed :=
  ⟨.evaluating e.reference e.descriptor e.depth :: .opened e.kind ::
    (chunk ++ .closed :: descent e.reference e.queue), by simp [Evaluation.part]⟩

theorem filterMap_descent (reference : String) (queue : List String) :
    (descent reference queue).filterMap Event.request? = [] := by
  unfold descent
  split <;> rfl

/-- The requests in the part of a descriptor are its own, and after them those of its queue. -/
theorem filterMap_part {e : Evaluation} {chunk : List Event} (h : e.Runs chunk)
    (followed : List Event) : (e.part chunk followed).filterMap Event.request? =
      e.requests ++ followed.filterMap Event.request? := by
  rw [← h.requests_eq, Evaluation.part, List.filterMap_cons_none rfl, List.filterMap_cons_none rfl,
    List.filterMap_append, List.filterMap_cons_none rfl, List.filterMap_append, filterMap_descent,
    List.nil_append]

/-- A journal has the part that belongs to an evaluation and its queue. -/
def Evaluation.PartOf (e : Evaluation) (journal : List Event) : Prop :=
  ∃ chunk followed fs, e.Runs chunk ∧ Traverses .project (e.depth + 1) e.queue followed fs ∧
    e.part chunk followed <:+: journal

theorem Evaluation.PartOf.mono {e : Evaluation} {events journal : List Event} (h : e.PartOf events)
    (hsub : events <:+: journal) : e.PartOf journal := by
  obtain ⟨chunk, followed, fs, hruns, hbelow, hpart⟩ := h
  exact ⟨chunk, followed, fs, hruns, hbelow, hpart.trans hsub⟩

/-- A journal shows evaluations: it has the part of each of them, and all of its requests belong to one
of them. -/
structure Shows (journal : List Event) (es : List Evaluation) : Prop where
  requests_eq : journal.filterMap Event.request? = es.flatMap (·.requests)
  part : ∀ e ∈ es, e.PartOf journal

namespace Shows

theorem append {events more : List Event} {es fs : List Evaluation} (h : Shows events es)
    (h' : Shows more fs) : Shows (events ++ more) (es ++ fs) where
  requests_eq := by
    rw [List.filterMap_append, List.flatMap_append, h.requests_eq, h'.requests_eq]
  part e he := by
    rcases List.mem_append.mp he with he | he
    · exact (h.part e he).mono (List.infix_append' [] _ _)
    · exact (h'.part e he).mono (List.suffix_append _ _).isInfix

/-- What is noted by no descriptor shows no evaluation. -/
theorem quiet {events : List Event} (h : ∀ e ∈ events, e.request? = none) : Shows events [] where
  requests_eq := List.filterMap_eq_nil_iff.mpr h
  part := by simp

end Shows

namespace Traverses

theorem append {kind : DescriptorKind} {depth : Nat} {references rest : List String}
    {events more : List Event} {es fs : List Evaluation} (h : Traverses kind depth references events es)
    (h' : Traverses kind depth rest more fs) :
    Traverses kind depth (references ++ rest) (events ++ more) (es ++ fs) := by
  induction h with
  | nil => exact h'
  | skipped _ ih => exact .skipped (ih h')
  | evaluated hchunk hbelow _ _ ih =>
    rw [List.append_assoc, List.cons_append, List.cons_append, List.append_assoc]
    exact .evaluated hchunk hbelow (ih h')

/-- A traversal shows its evaluations. -/
theorem shows {kind : DescriptorKind} {depth : Nat} {references : List String} {events : List Event}
    {es : List Evaluation} (h : Traverses kind depth references events es) : Shows events es := by
  induction h with
  | nil => exact .quiet (by simp)
  | @skipped _ _ reference _ _ _ _ ih =>
    have hskipped : Shows [.skipped reference] [] := .quiet (by simp [Event.request?])
    exact hskipped.append ih
  | @evaluated e chunk followed fs _ _ _ hchunk hbelow _ ih ih' =>
    have hown : Shows (e.part chunk followed) (e :: fs) := by
      refine ⟨by rw [filterMap_part hchunk, ih.requests_eq, List.flatMap_cons], ?_⟩
      rintro f (_ | ⟨_, hf⟩)
      · exact ⟨chunk, followed, fs, hchunk, hbelow, List.infix_refl _⟩
      · exact (ih.part f hf).mono (suffix_part e chunk followed).isInfix
    exact hown.append ih'

end Traverses

/-! ## Units -/

/-- A unit is what an evaluation has declared: each of its lists holds the values of the requests about
it in order, and its target is that of the only request that has declared one. -/
structure ResolvedUnit.DeclaredBy (u : ResolvedUnit) (e : Evaluation) : Prop where
  kind_eq : e.kind = .project
  reference_eq : u.reference = e.reference
  descriptor_eq : u.descriptor = e.descriptor
  depth_eq : u.depth = e.depth
  values_eq : ∀ setting : LocalSetting,
    setting.values u.settings = e.requests.filterMap setting.value?
  target_eq : u.target.toList = e.requests.filterMap Request.target?

namespace Graph

variable {μ : Type} {g : Graph μ}

/-- The target that a descriptor leaves is that of the only request that has declared one. -/
theorem Enters.target_eq {kind : DescriptorKind} {depth : Nat} {link : Link} {s t : GraphState μ}
    {requests : List Request} {frame : Frame} (h : g.Enters kind depth link s requests (.ok frame) t) :
    frame.target.toList = requests.filterMap Request.target? := by
  obtain ⟨_, performed, chunk, rfl, hperforms, hj, rfl, -, hresult⟩ := h.exists_performs
  exact hperforms.target_eq (f := .fresh kind) rfl (hresult frame rfl) hj

/-- The unit of a descriptor is what it has declared. -/
theorem Enters.declared {below : List Link} {link : Link} {s t : GraphState μ}
    {requests : List Request} {frame : Frame}
    (h : g.Enters .project below.length link s requests (.ok frame) t) :
    ∀ u ∈ unitOf .project below link frame,
      u.DeclaredBy (link.evaluation below.length .project requests) := by
  rintro u ⟨⟩
  refine ⟨rfl, rfl, rfl, rfl, fun setting => ?_, h.target_eq⟩
  rw [h.frame_eq frame rfl, Evaluation.frame, setting.values_foldl_after, Frame.fresh,
    setting.values_empty, List.nil_append]

variable {below : List Link} {task : Task} {s t : GraphState μ} {es : List Evaluation}
  {units : List ResolvedUnit}

/-- Every unit of a call is what a descriptor has declared that the call has evaluated. -/
theorem Completes.declared (h : g.Completes below task s es units t) :
    ∀ u ∈ units, ∃ e ∈ es, u.DeclaredBy e := by
  induction h with
  | skipped | nil => simp
  | @evaluated below kind _ link _ requests frame _ _ _ _ _ _ hr _ ih =>
    intro u hu
    rcases List.mem_append.mp hu with hu | hu
    · cases kind with
      | override => cases hu
      | project => exact ⟨_, List.mem_cons_self, hr.declared u (Option.mem_toList.mp hu)⟩
    · obtain ⟨e, he, hdeclared⟩ := ih u hu
      exact ⟨e, List.mem_cons_of_mem _ he, hdeclared⟩
  | cons _ _ ih ih' =>
    intro u hu
    rcases List.mem_append.mp hu with hu | hu
    · obtain ⟨e, he, hdeclared⟩ := ih u hu
      exact ⟨e, List.mem_append_left _ he, hdeclared⟩
    · obtain ⟨e, he, hdeclared⟩ := ih' u hu
      exact ⟨e, List.mem_append_right _ he, hdeclared⟩

/-- A call that succeeds is noted as a traversal. -/
theorem Completes.traverses (h : g.Completes below task s es units t) :
    ∃ events, t.session.journal = s.session.journal ++ events ∧
      Traverses task.kind below.length task.references events es := by
  induction h with
  | skipped => exact ⟨_, rfl, .skipped .nil⟩
  | @evaluated below kind _ link _ requests frame t es _ _ _ _ hr _ ih =>
    obtain ⟨chunk, hj, hrequests, hp⟩ := hr.journal_eq
    obtain ⟨events, he, hbelow⟩ := ih
    have hown : (link.evaluation below.length kind requests).Runs chunk := ⟨hrequests, hp⟩
    have hdescent : (t.descend link.reference frame.required).session.journal =
        t.session.journal ++ descent link.reference frame.required := by
      unfold GraphState.descend descent
      split <;> simp [GraphState.note, Session.note]
    rw [Task.references, hr.required_eq, List.length_append] at hbelow
    have htraverses := Traverses.evaluated hown hbelow .nil
    rw [List.append_nil, List.append_nil] at htraverses
    refine ⟨_, ?_, htraverses⟩
    rw [he, hdescent, hj, hr.required_eq]
    simp [Evaluation.part, Link.evaluation]
  | nil => exact ⟨[], by simp, .nil⟩
  | cons _ _ ih ih' =>
    obtain ⟨events, he, hfirst⟩ := ih
    obtain ⟨more, hm, hrest⟩ := ih'
    exact ⟨events ++ more, by rw [hm, he, List.append_assoc], hfirst.append hrest⟩

end Graph

end BuildComposition
