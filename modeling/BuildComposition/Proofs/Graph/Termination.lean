import BuildComposition.Proofs.FileTree.Canonical
import BuildComposition.Proofs.Graph.Agenda
import BuildComposition.Proofs.Graph.RepeatedCalls
import Mathlib.Data.Finset.Card

/-!
# Following references comes to an end

Every call on a graph ends, whatever the descriptors queue, if each of them returns.  However often a graph
is called, and whether the calls succeed or fail, no more descriptors are evaluated than there are files,
and the stack is never higher than the permitted depth.

## Main definitions

* `FileTree.files`: the places in a tree at which files stand
* `Graph.Shallow`: the stack is no higher than permitted, and never was

## Main results

* `Graph.Reached.evaluated_length_le`: descriptors that were evaluated are distinct files
* `Graph.KeepsShallow.walk`: following references keeps the stack low
* `traversal_terminates`: calls on a graph of files come to an end
-/

namespace BuildComposition

variable {μ : Type}

/-! ## Files -/

/-- The entry is a file. -/
def Entry.isFile : Entry → Bool
  | .file _ => true
  | _ => false

namespace FileTree

/-- The places in a tree at which files stand. -/
def files (t : FileTree) : Finset Location :=
  (t.entries.map (·.1)).toFinset.filter fun l => (t.entry? l).any Entry.isFile

theorem mem_files {t : FileTree} {l : Location} {content : Bytes}
    (h : t.entry? l = some (.file content)) : l ∈ t.files := by
  have hmem : l ∈ t.entries.map (·.1) := by
    unfold entry? entryIn? at h
    split at h
    · cases h
    · obtain ⟨before, after, hentries, -⟩ := List.lookup_eq_some_iff.mp h
      rw [hentries]
      simp
  rw [files, Finset.mem_filter, List.mem_toFinset, h]
  exact ⟨hmem, rfl⟩

/-- Different paths that files are found at are no more than there are files. -/
theorem length_le_card_files {t : FileTree} {paths : List Path} (hnodup : paths.Nodup)
    (h : ∀ p ∈ paths, ∃ q, t.canonicalFile? q = some p) : paths.length ≤ t.files.card := by
  have hsubset : paths.toFinset ⊆ t.files.image Location.path := by
    intro p hp
    obtain ⟨q, hq⟩ := h p (List.mem_toFinset.mp hp)
    obtain ⟨l, content, rfl, hentry, -⟩ := exists_file_of_canonicalFile? hq
    exact Finset.mem_image_of_mem _ (mem_files hentry)
  calc paths.length = paths.toFinset.card := (List.toFinset_card_of_nodup hnodup).symm
    _ ≤ (t.files.image Location.path).card := Finset.card_le_card hsubset
    _ ≤ t.files.card := Finset.card_image_le

end FileTree

/-! ## What is evaluated -/

/-- The descriptors that a record tells to have been evaluated. -/
def evaluatedIn (moments : List Moment) : List Path := moments.filterMap (·.occurrence.evaluated?)

namespace Recounts

variable {visited after : List Path} {moments : List Moment}

/-- What was visited in the end are the descriptors that were evaluated and those visited before. -/
theorem visited_eq (h : Recounts visited moments after) :
    after = (evaluatedIn moments).reverse ++ visited := by
  induction h with
  | nil => rfl
  | @cons visited m moments after _ _ ih =>
    rw [ih, evaluatedIn, evaluatedIn, List.filterMap_cons]
    cases m.occurrence.evaluated? <;> simp

theorem nodup (h : Recounts visited moments after) (hvisited : visited.Nodup) : after.Nodup := by
  induction h with
  | nil => exact hvisited
  | @cons visited m moments after hfits _ ih =>
    apply ih
    cases ho : m.occurrence <;> rw [ho] at hfits <;>
      simp only [Occurrence.evaluated?, Option.toList, List.nil_append, List.singleton_append]
    case returned | failed => exact List.nodup_cons.mpr ⟨hfits, hvisited⟩
    all_goals exact hvisited

end Recounts

namespace Graph

variable {g : Graph μ}

/-- What was visited is what references lead to. -/
theorem Reached.leads {w : Walk μ} (h : g.Reached w) :
    ∀ p ∈ w.state.visited, ∃ reference, g.Leads reference p := by
  induction h with
  | fresh => simp
  | between _ _ _ _ ih => exact ih
  | @called w v c outcome h hrun ih =>
    obtain ⟨es, outcome', t, more, hfollows, -, hrun', -⟩ := exists_walk h.ready.stack_eq c
    obtain ⟨-, rfl⟩ := ending_inj (hrun.symm.trans hrun')
    intro p hp
    rcases hfollows.mem_visited_iff.mp hp with hp | ⟨e, he, rfl⟩
    · exact ih p hp
    · exact ⟨e.reference, hfollows.leads e he⟩

/-- All calls together evaluate no more descriptors than there are files. -/
theorem Reached.evaluated_length_le {tree : FileTree} (hfind : g.evaluator.find? = tree.canonicalFile?)
    {w : Walk μ} (h : g.Reached w) : (evaluatedIn w.moments).length ≤ tree.files.card := by
  have hvisited : w.state.visited = (evaluatedIn w.moments).reverse := by
    rw [h.recounts.visited_eq, List.append_nil]
  have hnodup : (evaluatedIn w.moments).Nodup := by
    rw [← List.nodup_reverse, ← hvisited]
    exact h.recounts.nodup List.nodup_nil
  refine FileTree.length_le_card_files hnodup fun p hp => ?_
  have hmem : p ∈ w.state.visited := by
    rw [hvisited]
    exact List.mem_reverse.mpr hp
  obtain ⟨reference, hleads⟩ := h.leads p hmem
  rw [Leads, hfind] at hleads
  exact ⟨_, hleads⟩

/-! ## How high the stack is -/

variable (g) in
/-- The stack is no higher above the root than permitted, and never was. -/
structure Shallow (w : Walk μ) : Prop where
  stack_le : w.stack.length ≤ g.base + g.maxDepth
  moments_le : ∀ m ∈ w.moments, m.stack.length ≤ g.base + g.maxDepth

/-- Where a step has ended. -/
def endState {ε σ α : Type} : EStateM.Result ε σ α → σ
  | .ok _ t | .error _ t => t

@[simp] theorem endState_ending {ε σ α : Type} (outcome : Except ε α) (t : σ) :
    endState (ending outcome t) = t := by
  cases outcome <;> rfl

variable (g) in
/-- A step that starts with a low stack ends with the same stack, which has been low all the time. -/
def KeepsShallow {α : Type} (act : Walking μ α) : Prop :=
  ∀ w, g.Shallow w → g.Shallow (endState (act.run w)) ∧ (endState (act.run w)).stack = w.stack

theorem Shallow.mark {w : Walk μ} (h : g.Shallow w) (o : Occurrence) : g.Shallow (w.mark o) := by
  refine ⟨h.stack_le, fun m hm => ?_⟩
  rcases List.mem_append.mp hm with hm | hm
  · exact h.moments_le m hm
  · rw [List.mem_singleton.mp hm]
    exact h.stack_le

theorem Shallow.withState {w : Walk μ} (h : g.Shallow w) (s : GraphState μ) :
    g.Shallow { w with state := s } := ⟨h.stack_le, h.moments_le⟩

namespace KeepsShallow

variable {α β : Type}

theorem pure (a : α) : g.KeepsShallow (Pure.pure a) := fun _ h => ⟨h, rfl⟩

theorem bind {act : Walking μ α} {f : α → Walking μ β} (h : g.KeepsShallow act)
    (hf : ∀ a, g.KeepsShallow (f a)) : g.KeepsShallow (act >>= f) := by
  intro w hw
  obtain ⟨hshallow, hstack⟩ := h w hw
  rw [EStateM.run_bind]
  cases hrun : act.run w with
  | error e v =>
    rw [hrun] at hshallow hstack
    exact ⟨hshallow, hstack⟩
  | ok a v =>
    rw [hrun] at hshallow hstack
    obtain ⟨hshallow', hstack'⟩ := hf a v hshallow
    exact ⟨hshallow', hstack'.trans hstack⟩

theorem mark (o : Occurrence) : g.KeepsShallow (modify (·.mark o) : Walking μ PUnit) :=
  fun _ h => ⟨h.mark o, rfl⟩

/-- What is read off the state may be used with the stack that it was read with. -/
theorem get {f : Walk μ → Walking μ α}
    (h : ∀ w, g.Shallow w → g.Shallow (endState ((f w).run w)) ∧
      (endState ((f w).run w)).stack = w.stack) :
    g.KeepsShallow (MonadState.get >>= f) := fun w hw => h w hw

/-- References are followed in order with the stack that the first one finds. -/
theorem inOrder {visit : Nat → String → Walking μ (List ResolvedUnit)}
    (h : ∀ position reference, g.KeepsShallow (visit position reference)) (position : Nat)
    (references : List String) : g.KeepsShallow (inOrder visit position references) := by
  induction references generalizing position with
  | nil => exact .pure _
  | cons reference rest ih => exact .bind (h position reference) fun _ => .bind (ih _) fun _ => .pure _

/-- While a descriptor is on the stack its queue keeps the stack, and then the descriptor is taken off. -/
theorem withPushed {act : Walking μ (List ResolvedUnit)} (h : g.KeepsShallow act) (link : Link)
    {w : Walk μ} (hw : g.Shallow w) (hlow : w.stack.length < g.base + g.maxDepth) :
    g.Shallow (endState ((tryFinally act (modify (·.pop)) : Walking μ _).run (w.push link))) ∧
      (endState ((tryFinally act (modify (·.pop)) : Walking μ _).run (w.push link))).stack =
        w.stack := by
  have hpushed : g.Shallow (w.push link) := by
    have hstack : g.Shallow { w with stack := w.stack ++ [link] } := by
      refine ⟨?_, hw.moments_le⟩
      rw [List.length_append, List.length_singleton]
      exact hlow
    exact hstack.mark .pushed
  obtain ⟨hshallow, hstack⟩ := h _ hpushed
  have hpopped : ∀ v : Walk μ, g.Shallow v → v.stack = (w.push link).stack →
      g.Shallow v.pop ∧ v.pop.stack = w.stack := by
    intro v hv heq
    have hdropped : v.stack.dropLast = w.stack := by
      rw [heq]
      exact List.dropLast_concat
    have hbelow : g.Shallow { v with stack := v.stack.dropLast } := by
      refine ⟨?_, hv.moments_le⟩
      rw [hdropped]
      exact hw.stack_le
    exact ⟨hbelow.mark .popped, hdropped⟩
  rw [run_tryFinally_modify]
  cases hrun : act.run (w.push link) <;>
    · rw [hrun] at hshallow hstack
      exact hpopped _ hshallow hstack

/-- A descriptor that may be required is on the stack while its queue is followed. -/
theorem walkInto {follow : List String → Walking μ (List ResolvedUnit)}
    (h : ∀ references, g.KeepsShallow (follow references)) (kind : DescriptorKind) (position : Nat)
    (link : Link) {w : Walk μ} (hw : g.Shallow w) (hlow : w.stack.length < g.base + g.maxDepth) :
    g.Shallow (endState ((g.walkInto follow kind position link).run w)) ∧
      (endState ((g.walkInto follow kind position link).run w)).stack = w.stack := by
  unfold Graph.walkInto
  simp only [EStateM.run_bind, EStateM.run_get, EStateM.run_modify]
  rcases g.enter kind (w.stack.length - g.base) link w.state with ⟨result, s⟩
  have hentered := hw.withState s
  cases result with
  | error e => exact ⟨hentered.mark _, rfl⟩
  | ok frame =>
    have hreturned := hentered.mark (.returned link.descriptor)
    simp only [EStateM.run_bind, EStateM.run_modify]
    split
    · exact ⟨hreturned, rfl⟩
    · have hdescended := hreturned.withState (s.descend link.reference frame.required)
      obtain ⟨hshallow, hstack⟩ := (h frame.required).withPushed link hdescended hlow
      simp only [EStateM.run_bind, EStateM.run_modify]
      simp only [Walk.mark] at hshallow hstack ⊢
      generalize (tryFinally (follow frame.required) (modify (·.pop)) : Walking μ _).run _ = result
        at hshallow hstack ⊢
      cases result <;> exact ⟨hshallow, hstack⟩

/-- Following a reference keeps the stack low, since the depth is looked at first. -/
theorem walkTo (remaining : Nat) (kind : DescriptorKind) (position : Nat) (reference : String) :
    g.KeepsShallow (g.walkTo remaining kind position reference) := by
  -- the induction is on the depth that is left, as in the recursion
  induction remaining using Nat.strongRecOn generalizing kind position reference with
  | ind remaining ih =>
    rw [Graph.walkTo.eq_def]
    refine .bind (.mark _) fun _ => .get fun w hw => ?_
    cases hfind : g.evaluator.find? (g.resolvePath reference) with
    | none =>
      simp only [hfind]
      exact ⟨hw, rfl⟩
    | some descriptor =>
      simp only [hfind]
      by_cases hcycle : w.stack.any (·.descriptor.agrees descriptor) = true
      · simp only [hcycle, if_true]
        exact ⟨hw, rfl⟩
      by_cases hdepth : g.maxDepth ≤ w.stack.length - g.base
      · simp only [hcycle, hdepth, if_true, Bool.false_eq_true, if_false]
        exact ⟨hw, rfl⟩
      simp only [hcycle, hdepth, Bool.false_eq_true, if_false]
      by_cases hv : w.state.visited.contains descriptor = true
      · simp only [EStateM.run_bind, EStateM.run_get, hv, if_true]
        exact ⟨(hw.mark _).withState _, rfl⟩
      simp only [EStateM.run_bind, EStateM.run_get, hv, Bool.false_eq_true, if_false]
      cases remaining with
      | zero => exact ⟨hw, rfl⟩
      | succ remaining =>
        have hlow : w.stack.length < g.base + g.maxDepth := by omega
        exact KeepsShallow.walkInto (.inOrder (ih remaining (Nat.lt_succ_self _) .project) 1) kind
          position ⟨reference, descriptor⟩ hw hlow

theorem walk (c : Call) : g.KeepsShallow (g.walk c) := by
  cases c with
  | all references => exact .inOrder (walkTo g.maxDepth .project) 1 references
  | override reference => exact walkTo g.maxDepth .override 1 reference

end KeepsShallow

/-- The stack is no higher than permitted at any point of all calls. -/
theorem Reached.shallow {w : Walk μ} (h : g.Reached w) : g.Shallow w := by
  induction h with
  | fresh => exact ⟨Nat.le_add_right _ _, by simp⟩
  | between _ _ _ _ ih => exact ⟨ih.stack_le, ih.moments_le⟩
  | @called w v c outcome _ hrun ih =>
    have hkept := (KeepsShallow.walk c w ih).1
    rwa [hrun, endState_ending] at hkept

end Graph

/-- Calls on a graph of files come to an end if every descriptor returns, whatever the descriptors queue:
after finitely many steps a call has ended, with the outcome and in the state that it has.  There are no
more steps than references in the call and in the queues of what it evaluates.

All calls on one graph together, whether they succeed or fail, evaluate no more descriptors than there are
files, and never have more descriptors on the stack above the root than the depth permits. -/
theorem traversal_terminates {g : Graph μ} {tree : FileTree}
    (hfind : g.evaluator.find? = tree.canonicalFile?) {returns : Path → μ → Session → Bool}
    (hreturns : ∀ path memory session, returns path memory session = true) {w : Walk μ}
    (hw : g.Reached w) :
    (∀ c, ∃ n outcome t more,
      (g.step returns)^[n] (Graph.start c w.state) = .ended outcome t ∧
      (g.call c).run w.state = Graph.ending outcome t ∧
      (g.walk c).run w = Graph.ending outcome ⟨t, w.stack, w.moments ++ more⟩ ∧
      n ≤ c.task.references.length + ((w.state.evaluated t).flatMap (·.queue)).length + 1) ∧
    (evaluatedIn w.moments).length ≤ tree.files.card ∧
    ∀ m ∈ w.moments, g.root.toList <+: m.stack ∧
      (m.stack.drop g.root.toList.length).length ≤ g.maxDepth := by
  refine ⟨fun c => ?_, hw.evaluated_length_le hfind, fun m hm => ⟨(hw.sound m hm).rooted, ?_⟩⟩
  · obtain ⟨n, outcome, t, hsteps, hcall, hn⟩ := Graph.exists_steps hreturns c w.state
    obtain ⟨es, outcome', t', more, -, hcall', hwalk, -⟩ := Graph.exists_walk hw.ready.stack_eq c
    obtain ⟨rfl, rfl⟩ := Graph.ending_inj (hcall.symm.trans hcall')
    exact ⟨n, outcome, t, more, hsteps, hcall, hwalk, hn⟩
  · have hle := hw.shallow.moments_le m hm
    rw [List.length_drop]
    unfold Graph.base at hle
    omega

/-- The descriptors of a tree that require each other come to an end, with a cycle, after both were
evaluated; there are no more files, and the stack has held no more than two. -/
theorem traversal_terminates_mutualTree :
    ∃ n t more, ((scriptGraph mutualTree ⟨['/']⟩ 2 none).step fun _ _ _ => true)^[n]
        (Graph.start (.all ["a"]) .initial) = .ended (.error (.cycle ["a", "b", "./a"])) t ∧
      ((scriptGraph mutualTree ⟨['/']⟩ 2 none).walk (.all ["a"])).run ⟨.initial, [], []⟩ =
        Graph.ending (.error (.cycle ["a", "b", "./a"])) ⟨t, [], more⟩ ∧
      evaluatedIn more = [Path.ofString "/a", Path.ofString "/b"] ∧
      (evaluatedIn more).length ≤ mutualTree.files.card ∧
      ∀ m ∈ more, m.stack.length ≤ 2 := by
  have hfailure : Graph.failure? (((scriptGraph mutualTree ⟨['/']⟩ 2 none).call
      (.all ["a"])).run .initial) = some (.cycle ["a", "b", "./a"]) := by
    decide +kernel
  have hevaluated : evaluatedIn (Graph.endState (((scriptGraph mutualTree ⟨['/']⟩ 2 none).walk
      (.all ["a"])).run ⟨.initial, [], []⟩)).moments =
        [Path.ofString "/a", Path.ofString "/b"] := by
    decide +kernel
  have hstart : (scriptGraph mutualTree ⟨['/']⟩ 2 none).Reached ⟨.initial, [], []⟩ := .fresh _ _ rfl
  have hfind : (scriptGraph mutualTree ⟨['/']⟩ 2 none).evaluator.find? = mutualTree.canonicalFile? :=
    rfl
  have hreturns : ∀ (path : Path) (memory : Script.Memory) (session : Session),
      (fun _ _ _ => true : Path → Script.Memory → Session → Bool) path memory session = true :=
    fun _ _ _ => rfl
  obtain ⟨hcalls, -⟩ := traversal_terminates hfind hreturns hstart
  obtain ⟨n, outcome, t, more, hsteps, hcall, hwalk, -⟩ := hcalls (.all ["a"])
  obtain ⟨-, hfiles, hstack⟩ := traversal_terminates hfind hreturns (hstart.called hwalk)
  rw [hwalk, Graph.endState_ending] at hevaluated
  rw [hcall] at hfailure
  cases outcome with
  | ok units => cases hfailure
  | error e =>
    cases hfailure
    exact ⟨n, t, more, hsteps, hwalk, hevaluated, hfiles, fun m hm => (hstack m hm).2⟩

end BuildComposition
