import BuildComposition.Proofs.Graph.ErrorLocation
import BuildComposition.Proofs.Graph.EvaluationStack

/-!
# Sequences of calls

A graph may be called again and again, also after a call that has failed, at whatever depth and for
whatever reason.  Every call leaves the graph ready for the next one: the stack is what it was when
the graph was made, no descriptor runs, and what was visited stays visited.

## Main definitions

* `Graph.Reached`: where calls on one graph can lead, whether they succeed or fail
* `Graph.Ready`: nothing is left of earlier calls on the stack, and no descriptor runs
* `Graph.Sound`: what holds of the stack at every point of a call

## Main results

* `Graph.exists_walk`: what a call does to the stack and to the record
* `stack_restored`: every call leaves the graph ready for the next one
-/

namespace BuildComposition

variable {μ : Type}

namespace Graph

variable {g : Graph μ} {below : List Link}

/-- No frame is left behind. -/
theorem Follows.idle {task : Task} {s t : GraphState μ} {es : List Evaluation}
    {outcome : Except GraphError (List ResolvedUnit)} (h : g.Follows below task s es outcome t)
    (hs : s.session.frame = none) : t.session.frame = none := by
  induction h with
  | refused | skipped | nil => exact hs
  | failed _ _ hr => exact hr.idle
  | @evaluated _ _ _ link _ _ frame t _ _ _ _ _ hr _ ih =>
    apply ih
    unfold GraphState.descend
    split <;> exact hr.idle
  | cons _ _ ih ih' => exact ih' (ih hs)
  | stop _ ih => exact ih hs

/-- The first descriptor that is evaluated at a place has the depth of the place. -/
theorem Follows.depth_head {task : Task} {s t : GraphState μ} {es : List Evaluation}
    {outcome : Except GraphError (List ResolvedUnit)} (h : g.Follows below task s es outcome t) :
    ∀ e ∈ es.head?, e.depth = below.length := by
  induction h with
  | refused | skipped | nil => simp
  | failed | evaluated => simp [Link.evaluation]
  | @cons _ _ _ _ _ es _ _ fs _ _ _ _ ih ih' =>
    cases es with
    | nil => exact ih'
    | cons e es => exact ih
  | stop _ ih => exact ih

/-- The chain of an error starts with the root. -/
theorem Follows.rooted_chain {task : Task} {s t : GraphState μ} {es : List Evaluation}
    {outcome : Except GraphError (List ResolvedUnit)} (h : g.Follows below task s es outcome t)
    {e : GraphError} (he : outcome = .error e) :
    g.root.toList.map (·.reference) <+: e.chain := by
  obtain ⟨trail, reference, position, -, hfails, -⟩ := h.exists_trail he
  have hchain : ∀ more, g.root.toList.map (·.reference) <+: g.chain more := by
    intro more
    rw [chain, links, List.map_append]
    exact List.prefix_append _ _
  have happend := fun more => (hchain more).trans (List.prefix_append _ [reference])
  cases hfails with
  | failed => exact hchain _
  | refused h =>
    cases h with
    | notFound => exact hchain _
    | cycle | tooDeep => exact happend _

variable (g) in
/-- Calls on one graph, each of which has succeeded or failed, have led to a state with a stack.
Before each call memory and session may have changed, but no descriptor was left running. -/
inductive Reached : Walk μ → Prop
  | fresh (memory : μ) (session : Session) (h : session.frame = none) :
      Reached ⟨⟨memory, session, []⟩, g.root.toList, []⟩
  | between {w} (h : Reached w) (memory : μ) (session : Session) (hs : session.frame = none) :
      Reached { w with state := { w.state with memory, session } }
  | called {w v c outcome} (h : Reached w) (hrun : (g.walk c).run w = ending outcome v) : Reached v

variable (g) in
/-- The graph is ready for a call: nothing is on the stack but the root, and no descriptor runs. -/
structure Ready (w : Walk μ) : Prop where
  stack_eq : w.stack = g.root.toList
  idle : w.state.session.frame = none

variable (g) in
/-- The root is at the bottom of the stack, so that depths can be counted from there, and no two
descriptors on the stack are the same. -/
structure Sound (stack : List Link) : Prop where
  rooted : g.root.toList <+: stack
  base_le : g.base ≤ stack.length
  apart : Apart stack

theorem Above.sound {stack : List Link} (h : g.Above [] stack) : g.Sound stack := by
  obtain ⟨⟨deeper, rfl⟩, hapart⟩ := h
  have hrooted : g.root.toList <+: g.links ([] ++ deeper) := List.prefix_append _ _
  exact ⟨hrooted, hrooted.length_le, hapart⟩

/-- Where nothing but the root is on the stack, no two descriptors are. -/
theorem apart_root : Apart (g.links []) := by
  rw [Apart, links, List.append_nil]
  cases g.root with
  | none => exact .nil
  | some root => exact List.pairwise_singleton _ root

theorem ending_inj {ε σ α : Type} {outcome outcome' : Except ε α} {t t' : σ}
    (h : ending outcome t = ending outcome' t') : outcome = outcome' ∧ t = t' := by
  cases outcome <;> cases outcome' <;> cases h <;> exact ⟨rfl, rfl⟩

/-- A call does on the stack what it does without, leaves the stack as it was, and records what has
happened. -/
theorem exists_walk {w : Walk μ} (h : w.stack = g.root.toList) (c : Call) :
    ∃ es outcome t more, g.Follows [] c.task w.state es outcome t ∧
      (g.call c).run w.state = ending outcome t ∧
      (g.walk c).run w = ending outcome ⟨t, w.stack, w.moments ++ more⟩ ∧
      g.Chronicle [] w.state.visited outcome t.visited more := by
  obtain ⟨es, outcome, t, hfollows, hcall⟩ := g.call_derives c w.state
  obtain ⟨more, hrun, hchronicle⟩ :=
    hfollows.retraces apart_root g.maxDepth w.moments (by simp)
  have hlinks : g.links [] = w.stack := by rw [links, List.append_nil, h]
  rw [hlinks] at hrun
  exact ⟨es, outcome, t, more, hfollows, hcall, hrun, hchronicle⟩

namespace Reached

variable {w : Walk μ}

theorem ready (h : g.Reached w) : g.Ready w := by
  induction h with
  | fresh _ _ hframe => exact ⟨rfl, hframe⟩
  | between _ _ _ hframe ih => exact ⟨ih.stack_eq, hframe⟩
  | @called w v c outcome _ hrun ih =>
    obtain ⟨es, outcome', t, more, hfollows, -, hrun', -⟩ := exists_walk ih.stack_eq c
    obtain ⟨-, rfl⟩ := ending_inj (hrun.symm.trans hrun')
    exact ⟨ih.stack_eq, hfollows.idle ih.idle⟩

theorem sound (h : g.Reached w) : ∀ m ∈ w.moments, g.Sound m.stack := by
  induction h with
  | fresh => simp
  | between _ _ _ _ ih => exact ih
  | @called w v c outcome h hrun ih =>
    obtain ⟨es, outcome', t, more, -, -, hrun', hchronicle⟩ := exists_walk h.ready.stack_eq c
    obtain ⟨-, rfl⟩ := ending_inj (hrun.symm.trans hrun')
    intro m hm
    exact (List.mem_append.mp hm).elim (ih m) fun hm => (hchronicle.above m hm).sound

/-- The record tells what was visited. -/
theorem recounts (h : g.Reached w) : Recounts [] w.moments w.state.visited := by
  induction h with
  | fresh => exact .nil []
  | between _ _ _ _ ih => exact ih
  | @called w v c outcome h hrun ih =>
    obtain ⟨es, outcome', t, more, -, -, hrun', hchronicle⟩ := exists_walk h.ready.stack_eq c
    obtain ⟨-, rfl⟩ := ending_inj (hrun.symm.trans hrun')
    exact ih.append hchronicle.recounts

end Reached

end Graph

/-- Every call leaves the graph ready for the next one, whatever calls there were before and whether
they have failed.  After the call only the root is on the stack and no descriptor runs, and what was
visited before still counts as visited.  At every point of all calls the root is at the bottom of
the stack and no two descriptors on it are the same.  So the depth of the first descriptor that a
call evaluates is zero, and if the call fails then its chain starts with the root. -/
theorem stack_restored {g : Graph μ} {w : Walk μ} (h : g.Reached w) :
    g.Ready w ∧ (∀ m ∈ w.moments, g.Sound m.stack) ∧
    ∀ c, ∃ outcome v,
      (g.walk c).run w = Graph.ending outcome v ∧
      (g.call c).run w.state = Graph.ending outcome v.state ∧
      g.Ready v ∧ (∀ m ∈ v.moments, g.Sound m.stack) ∧
      w.state.visited ⊆ v.state.visited ∧
      (∀ e ∈ (w.state.evaluated v.state).head?, e.depth = 0) ∧
      ∀ e, outcome = .error e → g.root.toList.map (·.reference) <+: e.chain := by
  refine ⟨h.ready, h.sound, ?_⟩
  intro c
  obtain ⟨es, outcome, t, more, hfollows, hcall, hrun, -⟩ := Graph.exists_walk h.ready.stack_eq c
  have hv : g.Reached ⟨t, w.stack, w.moments ++ more⟩ := h.called hrun
  refine ⟨outcome, _, hrun, hcall, hv.ready, hv.sound, ?_, ?_, ?_⟩
  · intro p hp
    exact hfollows.mem_visited_iff.mpr (.inl hp)
  · rw [hfollows.evaluated_eq]
    exact hfollows.depth_head
  · intro e he
    exact hfollows.rooted_chain he

/-- A call that finds a cycle, when two descriptors are on the stack, takes them off again. -/
theorem stack_restored_mutualTree :
    ∃ w, ((scriptGraph mutualTree ⟨['/']⟩ 64 (some ⟨"build", ⟨['/', 'r']⟩⟩)).walk
        (.all ["a"])).run ⟨.initial, [⟨"build", ⟨['/', 'r']⟩⟩], []⟩ =
          .error (.cycle ["build", "a", "b", "./a"]) w ∧
      (∃ m ∈ w.moments, m.stack.length = 3) ∧ w.stack = [⟨"build", ⟨['/', 'r']⟩⟩] := by
  have hwalk : (match ((scriptGraph mutualTree ⟨['/']⟩ 64 (some ⟨"build", ⟨['/', 'r']⟩⟩)).walk
      (.all ["a"])).run ⟨.initial, [⟨"build", ⟨['/', 'r']⟩⟩], []⟩ with
      | .ok _ _ => none
      | .error e w => some (e, w.moments.map (·.stack.length))) =
      some (.cycle ["build", "a", "b", "./a"], [1, 1, 2, 2, 2, 3, 3, 2, 1]) := by
    decide +kernel
  have hstart : (scriptGraph mutualTree ⟨['/']⟩ 64 (some ⟨"build", ⟨['/', 'r']⟩⟩)).Reached
      ⟨.initial, [⟨"build", ⟨['/', 'r']⟩⟩], []⟩ := .fresh _ _ rfl
  cases hrun : ((scriptGraph mutualTree ⟨['/']⟩ 64 (some ⟨"build", ⟨['/', 'r']⟩⟩)).walk
      (.all ["a"])).run ⟨.initial, [⟨"build", ⟨['/', 'r']⟩⟩], []⟩ with
  | ok units w =>
    rw [hrun] at hwalk
    cases hwalk
  | error e w =>
    rw [hrun] at hwalk
    simp only [Option.some.injEq, Prod.mk.injEq] at hwalk
    obtain ⟨rfl, hlengths⟩ := hwalk
    have hthree : 3 ∈ w.moments.map (·.stack.length) := by rw [hlengths]; decide
    obtain ⟨m, hm, hlength⟩ := List.mem_map.mp hthree
    obtain ⟨outcome, v, hcalled, -, hready, -⟩ := (stack_restored hstart).2.2 (.all ["a"])
    cases outcome <;> cases hrun.symm.trans hcalled
    exact ⟨w, rfl, ⟨m, hm, hlength⟩, hready.stack_eq⟩

end BuildComposition
