import BuildComposition.Proofs.Session.Requests

/-!
# Evaluations in a journal

A journal tells which descriptors were evaluated, in which order, and what each of them requested
while it ran.  The references that a descriptor has queued are among its requests, so the graph that
a run has followed can be read off its journal.

## Main definitions

* `Evaluation`: one evaluation of a descriptor
* `evaluations`: those that a journal tells of, in the order in which they began
* `Records events es`: a part of a journal that tells of `es`, whatever comes after it

## Main results

* `records_evaluation`: what is noted around a descriptor tells of one evaluation
* `Records.append`: parts of a journal tell of their evaluations one after the other
-/

namespace BuildComposition

/-- One evaluation of a descriptor. -/
structure Evaluation where
  /-- The reference that led to the descriptor. -/
  reference : String
  descriptor : Path
  depth : Nat
  kind : DescriptorKind
  /-- What took effect while the descriptor ran, in order. -/
  requests : List Request
  deriving DecidableEq, Repr

namespace Evaluation

/-- The references that the descriptor has queued. -/
def queue (e : Evaluation) : List String := e.requests.filterMap Request.reference?

/-- The descriptor ran as a project. -/
def isProject (e : Evaluation) : Bool := e.kind == .project

/-- The frame that the descriptor leaves. -/
def frame (e : Evaluation) : Frame := e.requests.foldl Frame.after (.fresh e.kind)

@[simp] theorem required_frame (e : Evaluation) : e.frame.required = e.queue := by
  simp [frame, queue, Frame.fresh]

end Evaluation

/-- The requests of the descriptor that runs at the beginning of a journal. -/
def requestsIn (journal : List Event) : List Request :=
  (journal.takeWhile (· != .closed)).filterMap Event.request?

/-- The evaluations that a journal tells of, in the order in which they began. -/
def evaluations : List Event → List Evaluation
  | .evaluating reference descriptor depth :: .opened kind :: rest =>
    ⟨reference, descriptor, depth, kind, requestsIn rest⟩ :: evaluations rest
  | _ :: rest => evaluations rest
  | [] => []

/-- A descriptor is about to be evaluated. -/
def Event.isStart : Event → Bool
  | .evaluating .. => true
  | _ => false

theorem evaluations_cons {e : Event} (h : e.isStart = false) (rest : List Event) :
    evaluations (e :: rest) = evaluations rest := by
  rw [evaluations]
  rintro reference descriptor depth - - rfl
  cases h

/-- A part of a journal tells of evaluations, whatever comes after it. -/
def Records (events : List Event) (es : List Evaluation) : Prop :=
  ∀ rest, evaluations (events ++ rest) = es ++ evaluations rest

namespace Records

theorem evaluations_eq {events : List Event} {es : List Evaluation} (h : Records events es) :
    evaluations events = es := by
  have h := h []
  rwa [List.append_nil, evaluations, List.append_nil] at h

theorem append {events more : List Event} {es fs : List Evaluation} (h : Records events es)
    (h' : Records more fs) : Records (events ++ more) (es ++ fs) := by
  intro rest
  rw [List.append_assoc, h, h', List.append_assoc]

/-- Where no descriptor starts there is no evaluation. -/
theorem quiet {events : List Event} (h : ∀ e ∈ events, e.isStart = false) : Records events [] := by
  intro rest
  induction events with
  | nil => rfl
  | cons e events ih =>
    rw [List.cons_append, evaluations_cons (h e (by simp))]
    exact ih fun e' he' => h e' (List.mem_cons_of_mem e he')

end Records

theorem Event.Permitted.isStart_eq {kind : DescriptorKind} {e : Event} (h : e.Permitted kind) :
    e.isStart = false := by
  obtain ⟨_, _, rfl, -⟩ := h
  rfl

theorem Event.Permitted.ne_closed {kind : DescriptorKind} {e : Event} (h : e.Permitted kind) :
    (e != .closed) = true := by
  obtain ⟨_, _, rfl, -⟩ := h
  rfl

/-- What is noted around a descriptor tells of one evaluation. -/
theorem records_evaluation (reference : String) (descriptor : Path) (depth : Nat)
    {kind : DescriptorKind} {chunk : List Event} (h : ∀ e ∈ chunk, e.Permitted kind) :
    Records (.evaluating reference descriptor depth :: .opened kind :: (chunk ++ [.closed]))
      [⟨reference, descriptor, depth, kind, chunk.filterMap Event.request?⟩] := by
  intro rest
  -- the descriptor runs until it is closed, and starts no other one
  have hruns : requestsIn (chunk ++ .closed :: rest) = chunk.filterMap Event.request? := by
    rw [requestsIn, List.takeWhile_append_of_pos fun e he => (h e he).ne_closed]
    simp
  have hquiet : Records (chunk ++ [.closed]) [] := by
    refine .quiet fun e he => ?_
    rcases List.mem_append.mp he with he | he
    · exact (h e he).isStart_eq
    · rw [List.mem_singleton.mp he]
      rfl
  simp only [List.cons_append, evaluations, List.nil_append]
  rw [hquiet rest, List.append_assoc, List.singleton_append, hruns, List.nil_append]

end BuildComposition
