import BuildComposition.Compose
import BuildComposition.Proofs.FileTree.Canonical
import BuildComposition.Proofs.Graph.Acyclicity

/-!
# Cycle detection

A graph may be called again and again.  A call that reports a cycle has found one: the descriptor to
which the last reference of the chain leads, or the root, requires itself.  As long as all calls succeed
there is none, neither among the descriptors nor through the root, also where a reference was skipped.

## Main definitions

* `GraphState.evaluated`: what was evaluated between two states
* `Graph.History`: calls on one graph that have succeeded

## Main results

* `Graph.exists_loop`: a cycle that is reported is one
* `Graph.History.not_transGen`: where all calls have succeeded there is no cycle
* `canonical_scriptGraph`: scripts are told apart by their canonical paths
-/

namespace BuildComposition

open Relation

variable {μ : Type}

/-- What was evaluated from one state to a later one. -/
def GraphState.evaluated (s t : GraphState μ) : List Evaluation :=
  evaluations (t.session.journal.drop s.session.journal.length)

namespace Graph

/-- Calls on one graph have all succeeded and have led to a state; they were made with the references
and have evaluated the descriptors.  Before each call memory and session may have changed. -/
inductive History (g : Graph μ) : List String → List Evaluation → GraphState μ → Prop
  | fresh (memory : μ) (session : Session) : History g [] [] ⟨memory, session, []⟩
  | between {declared es s} (h : History g declared es s) (memory : μ) (session : Session) :
      History g declared es { s with memory, session }
  | call {declared es s units t} (h : History g declared es s) (c : Call)
      (hrun : (g.call c).run s = .ok units t) :
      History g (declared ++ c.task.references) (es ++ s.evaluated t) t

variable {g : Graph μ}

/-- What a derivation evaluates can be read off the journal. -/
theorem Follows.evaluated_eq {below : List Link} {task : Task} {s t : GraphState μ}
    {es : List Evaluation} {outcome : Except GraphError (List ResolvedUnit)}
    (h : g.Follows below task s es outcome t) : s.evaluated t = es := by
  obtain ⟨events, hj, hrecords⟩ := h.exists_events
  rw [GraphState.evaluated, hj, List.drop_left]
  exact hrecords.evaluations_eq

namespace History

variable {declared : List String} {es : List Evaluation} {s : GraphState μ}

theorem exists_series (h : g.History declared es s) :
    ∃ units, g.Series declared es units s.visited := by
  induction h with
  | fresh => exact ⟨[], .nil⟩
  | between _ _ _ ih => exact ih
  | call _ c hrun ih =>
    obtain ⟨units, hseries⟩ := ih
    obtain ⟨fs, hcall⟩ := completes_of_call_ok hrun
    rw [hcall.follows.evaluated_eq]
    exact ⟨_, hseries.call rfl hcall⟩

/-- Where all calls have succeeded, nothing requires itself. -/
theorem not_transGen (hg : g.Canonical) (h : g.History declared es s) (a : List Path.Component) :
    ¬TransGen (g.Needs declared es) a a := by
  obtain ⟨units, hseries⟩ := h.exists_series
  exact hseries.not_transGen hg a

end History

/-- A cycle is reported for a reference that leads back to one of the links on the way to it.  Each of
these was queued by the one before, the first by the root, so that the link requires itself. -/
theorem exists_loop {c : Call} {s t : GraphState μ} {chain : List String}
    (hrun : (g.call c).run s = .error (.cycle chain) t) (declared : List String)
    (es : List Evaluation) :
    ∃ below reference descriptor entry,
      chain = g.chain below ++ [reference] ∧
      g.Lineage (s.evaluated t) c.task.references below reference ∧
      g.Leads reference descriptor ∧
      entry ∈ g.links below ∧ entry.descriptor.agrees descriptor = true ∧
      TransGen (g.Needs (declared ++ c.task.references) (es ++ s.evaluated t))
        entry.descriptor.components entry.descriptor.components := by
  obtain ⟨fs, hfollows⟩ := follows_of_call_error hrun
  rw [hfollows.evaluated_eq]
  rcases hfollows.exists_lineage rfl with ⟨below, reference, position, hlineage, hrefuses⟩ | hfailed
  · rw [List.nil_append] at hrefuses
    cases hrefuses with
    | @cycle descriptor entry hleads hentry hagrees =>
      refine ⟨below, reference, descriptor, entry, rfl, hlineage, hleads, hentry, hagrees, ?_⟩
      have hgrown : g.Lineage (es ++ fs) c.task.references below reference :=
        hlineage.mono (List.subset_append_right es fs) (List.Subset.refl _)
      have hcomponents : entry.descriptor.components = descriptor.components :=
        beq_iff_eq.mp hagrees
      -- the reference leads back to the root, or to a link on the way to it
      rcases List.mem_append.mp hentry with hroot | hbelow
      · have hcycle := hgrown.transGen hleads fun r hr p hp =>
          .root (Option.mem_toList.mp hroot) (List.mem_append_right declared hr) hp
        rwa [← hcomponents] at hcycle
      · have hcycle : TransGen (g.Needs (declared ++ c.task.references) (es ++ fs))
            entry.descriptor.components descriptor.components :=
          hgrown.transGen_of_mem hleads entry hbelow
        rwa [← hcomponents] at hcycle
  -- the error of a descriptor that fails is not that of a cycle
  · obtain ⟨_, _, _, _, heq⟩ := hfailed
    cases heq

end Graph

/-- A graph whose descriptors are the scripts in a tree. -/
def scriptGraph (tree : FileTree) (runDir : Path) (maxDepth : Nat) (root : Option Link) :
    Graph Script.Memory := ⟨scriptEvaluator tree, runDir, maxDepth, root⟩

theorem canonical_scriptGraph (tree : FileTree) (runDir : Path) (maxDepth : Nat)
    (root : Option Link) : (scriptGraph tree runDir maxDepth root).Canonical :=
  fun hp hq hagrees => tree.canonicalFile?_eq_of_agrees hp hq hagrees

/-- A call on a graph on which no call has failed reports a cycle only if there is one, and succeeds only
if there is none.

If it reports one, the last reference of the chain leads back to one of the links that the other
references of the chain stand for.  Each of these but the root was queued by the one before it, and the
first by the root, so that the link requires itself.  If it succeeds, no descriptor that was evaluated on
the graph requires itself, and neither does the root. -/
theorem cycle_detection {tree : FileTree} {runDir : Path} {maxDepth : Nat} {root : Option Link}
    {declared : List String} {es : List Evaluation} {s : GraphState Script.Memory}
    (h : (scriptGraph tree runDir maxDepth root).History declared es s) (c : Graph.Call) :
    (∀ chain t, ((scriptGraph tree runDir maxDepth root).call c).run s = .error (.cycle chain) t →
      ∃ below reference descriptor entry,
        chain = (scriptGraph tree runDir maxDepth root).chain below ++ [reference] ∧
        (scriptGraph tree runDir maxDepth root).Lineage (s.evaluated t) c.task.references below
          reference ∧
        (scriptGraph tree runDir maxDepth root).Leads reference descriptor ∧
        entry ∈ (scriptGraph tree runDir maxDepth root).links below ∧
        entry.descriptor.agrees descriptor = true ∧
        TransGen ((scriptGraph tree runDir maxDepth root).Needs (declared ++ c.task.references)
            (es ++ s.evaluated t))
          entry.descriptor.components entry.descriptor.components) ∧
    ∀ units t, ((scriptGraph tree runDir maxDepth root).call c).run s = .ok units t →
      ∀ a, ¬TransGen ((scriptGraph tree runDir maxDepth root).Needs (declared ++ c.task.references)
        (es ++ s.evaluated t)) a a := by
  refine ⟨fun chain t hrun => Graph.exists_loop hrun declared es, fun units t hrun => ?_⟩
  exact (h.call c hrun).not_transGen (canonical_scriptGraph tree runDir maxDepth root)

/-- A tree in which `a` and `b` require each other. -/
def mutualTree : FileTree :=
  (FileTree.empty.putEntry [['a']] (.file (Utf8.encode "prj.required(\"b\")"))).putEntry
    [['b']] (.file (Utf8.encode "prj.required(\"./a\")"))

/-- The state of a graph that was not called yet. -/
def GraphState.initial : GraphState Script.Memory :=
  ⟨Script.Memory.withProject ⟨"gcc"⟩ ⟨['/']⟩, .start, []⟩

/-- The error of a call, if it fails. -/
def Graph.failure? {ε σ α : Type} : EStateM.Result ε σ α → Option ε
  | .ok _ _ => none
  | .error e _ => some e

/-- A cycle is reported although the last reference spells its path in another way. -/
theorem cycle_detection_mutualTree :
    ∃ t, ((scriptGraph mutualTree ⟨['/']⟩ 64 none).call (.all ["a"])).run .initial =
        .error (.cycle ["a", "b", "./a"]) t ∧
      ∃ entry, TransGen ((scriptGraph mutualTree ⟨['/']⟩ 64 none).Needs ["a"]
        (GraphState.initial.evaluated t)) entry entry := by
  have hfailure : Graph.failure? (((scriptGraph mutualTree ⟨['/']⟩ 64 none).call
      (.all ["a"])).run .initial) = some (.cycle ["a", "b", "./a"]) := by
    decide +kernel
  have hstart : (scriptGraph mutualTree ⟨['/']⟩ 64 none).History [] [] .initial := .fresh _ _
  cases hrun : ((scriptGraph mutualTree ⟨['/']⟩ 64 none).call (.all ["a"])).run .initial with
  | ok units t =>
    rw [hrun] at hfailure
    cases hfailure
  | error e t =>
    rw [hrun] at hfailure
    cases hfailure
    obtain ⟨_, _, _, entry, -, -, -, -, -, hcycle⟩ :=
      (cycle_detection hstart (.all ["a"])).1 _ t hrun
    exact ⟨t, rfl, _, hcycle⟩

end BuildComposition
