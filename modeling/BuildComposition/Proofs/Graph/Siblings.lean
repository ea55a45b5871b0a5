import BuildComposition.Proofs.Graph.Determinacy
import BuildComposition.Proofs.Graph.Trails

/-!
# Sibling references

References are followed one after the other, and all that one leaves to the next is the state.  To follow
a list and then another one is therefore to follow both as one list, but for the positions: an error
about an entry of the second list names its position in the list of both.  Positions in the queues of
descriptors do not change.  If the first list fails, the second is not looked at.

## Main definitions

* `GraphError.shift`: an error about a reference of a list that now stands behind others

## Main results

* `Graph.Follows.shift`: what depends on the position of the first reference
* `Graph.Follows.append`, `Graph.Follows.append_of_error`: following one list after another
-/

namespace BuildComposition

/-- The error of a reference that has moved by some positions, if its chain shows that the error is about
this reference itself. -/
def GraphError.shift (chain : List String) (count : Nat) : GraphError → GraphError
  | .notFound reference resolved position c =>
    .notFound reference resolved (if c = chain then position + count else position) c
  | .descriptor reference position c cause =>
    .descriptor reference (if c = chain then position + count else position) c cause
  | .cycle c => .cycle c
  | .tooDeep limit c => .tooDeep limit c

/-- The task with its first reference moved by some positions. -/
def Task.shift (count : Nat) : Task → Task
  | one kind position reference => one kind (position + count) reference
  | all position references => all (position + count) references

namespace Graph

variable {μ : Type} {g : Graph μ} {below : List Link} {s t u : GraphState μ}
  {es fs : List Evaluation} {outcome : Except GraphError (List ResolvedUnit)}

theorem Refuses.shift {position : Nat} {reference : String} {e : GraphError}
    (h : g.Refuses below position reference e) (count : Nat) :
    g.Refuses below (position + count) reference (e.shift (g.chain below) count) := by
  cases h with
  | notFound h =>
    rw [GraphError.shift, if_pos rfl]
    exact .notFound h
  | cycle h hlink hagrees => exact .cycle h hlink hagrees
  | tooDeep h hapart hdepth => exact .tooDeep h hapart hdepth

/-- An error about a reference further down is not about one at this place. -/
theorem Fails.shift_eq {more : List Link} (hmore : more ≠ []) {position : Nat} {reference : String}
    {e : GraphError} (h : g.Fails (below ++ more) position reference e) (count : Nat) :
    e.shift (g.chain below) count = e := by
  have hne : g.chain (below ++ more) ≠ g.chain below := by
    intro heq
    have hlength := congrArg List.length heq
    simp only [chain, links, List.length_map, List.length_append] at hlength
    exact hmore (List.eq_nil_of_length_eq_zero (by omega))
  cases h with
  | failed => rw [GraphError.shift, if_neg hne]
  | refused h =>
    cases h with
    | notFound => rw [GraphError.shift, if_neg hne]
    | cycle | tooDeep => rfl

namespace Follows

/-- All that depends on the position of the first reference is the position of an error about one of the
references themselves. -/
theorem shift {task : Task} (h : g.Follows below task s es outcome t) (count : Nat) :
    g.Follows below (task.shift count) s es (outcome.mapError (·.shift (g.chain below) count)) t := by
  induction h with
  | refused h => exact .refused (h.shift count)
  | skipped ha hv => exact .skipped ha hv
  | failed ha hv hr =>
    simp only [Except.mapError, GraphError.shift, if_true]
    exact .failed ha hv hr
  | @evaluated below kind position link s _ frame _ es outcome u ha hv hr h _ =>
    have hevaluated : g.Follows below (.one kind (position + count) link.reference) s _
        (outcome.map ((unitOf kind below link frame).toList ++ ·)) u := .evaluated ha hv hr h
    cases outcome with
    | ok units => exact hevaluated
    | error e =>
      -- the queue is that of the descriptor and has its own positions
      obtain ⟨trail, reference, index, -, hfails, -⟩ := h.exists_trail rfl
      rw [List.append_assoc] at hfails
      have heq : e.shift (g.chain below) count = e := hfails.shift_eq (by simp) count
      simp only [Except.map, Except.mapError, heq]
      exact hevaluated
  | nil => exact .nil
  | @cons _ position _ _ _ _ _ _ _ outcome _ _ _ ih ih' =>
    rw [Task.shift, Nat.add_right_comm] at ih'
    have hcons := Follows.cons ih ih'
    cases outcome <;> exact hcons
  | stop _ ih => exact .stop ih

/-- A list that fails fails as well with other references behind it, which are not looked at. -/
theorem append_of_error {position : Nat} {xs : List String} {e : GraphError}
    (h : g.Follows below (.all position xs) s es (.error e) t) (ys : List String) :
    g.Follows below (.all position (xs ++ ys)) s es (.error e) t := by
  induction xs generalizing position s es t e with
  | nil => cases h
  | cons x xs ih =>
    generalize houtcome : Except.error (ε := GraphError) (α := List ResolvedUnit) e = outcome at h
    cases h with
    | stop h =>
      cases houtcome
      exact .stop h
    | @cons _ _ _ _ _ _ _ _ _ outcome _ h h' =>
      cases outcome <;> cases houtcome
      exact .cons h (ih h')

/-- Two lists that are followed one after the other are followed as one. -/
theorem append {position : Nat} {xs ys : List String} {units : List ResolvedUnit}
    (h : g.Follows below (.all position xs) s es (.ok units) t)
    (h' : g.Follows below (.all (position + xs.length) ys) t fs outcome u) :
    g.Follows below (.all position (xs ++ ys)) s (es ++ fs) (outcome.map (units ++ ·)) u := by
  induction xs generalizing position s es units with
  | nil =>
    cases h
    cases outcome <;> exact h'
  | cons x xs ih =>
    cases h.completes with
    | cons hfirst hrest =>
      rw [List.length_cons, ← Nat.add_assoc, Nat.add_right_comm] at h'
      have hcons := Follows.cons hfirst.follows (ih hrest.follows h')
      rw [← List.append_assoc] at hcons
      cases outcome with
      | error e => exact hcons
      | ok rest =>
        simp only [Except.map, List.append_assoc] at hcons ⊢
        exact hcons

end Follows

end Graph

/-- To evaluate references is to evaluate some of them and then the others.

If the first ones fail, so do all with the same error and in the same state, and nothing of the others is
evaluated.  Otherwise the others are evaluated in the state that the first ones leave.  Their units come
behind those of the first ones; their error is the same, but for its position if it is about one of them,
which is then counted from the beginning of all. -/
theorem evaluateAll_append {μ : Type} (g : Graph μ) (xs ys : List String) (s : GraphState μ) :
    (g.evaluateAll (xs ++ ys)).run s =
      match (g.evaluateAll xs).run s with
      | .error e t => .error e t
      | .ok units t =>
        match (g.evaluateAll ys).run t with
        | .error e u => .error (e.shift (g.chain []) xs.length) u
        | .ok more u => .ok (units ++ more) u := by
  obtain ⟨es, outcome, t, h, hrun⟩ := g.call_derives (.all xs) s
  rw [show (g.evaluateAll xs).run s = Graph.ending outcome t from hrun]
  cases outcome with
  | error e => exact Graph.run_eq_of_follows (c := .all (xs ++ ys)) (h.append_of_error ys)
  | ok units =>
    obtain ⟨fs, outcome, u, h', hrun'⟩ := g.call_derives (.all ys) t
    have hall := h.append (h'.shift xs.length)
    have hboth := Graph.run_eq_of_follows (c := .all (xs ++ ys)) hall
    simp only [Graph.ending, show (g.evaluateAll ys).run t = Graph.ending outcome u from hrun']
    cases outcome <;> exact hboth

end BuildComposition
