import BuildComposition.Proofs.Graph.CycleDetection

/-!
# Where a call fails

The error of a call tells exactly which reference has failed.  Its chain starts with the root and names
the descriptors on the way, each of which was queued by the one before it, and its position is that of
the reference in the last queue.  A reference that leads back into the chain, or that is too deep, is
named at the end of the chain itself.

## Main definitions

* `GraphError.chain`: the references that led to an error
* `Graph.Locates`: what an error tells about the reference that has failed

## Main results

* `Graph.Fails.locates`: how a reference has failed can be read off the error
* `Graph.chainText_chain`: the chain of an error reads from the root on
-/

namespace BuildComposition

/-- The references that led to an error. -/
def GraphError.chain : GraphError → List String
  | .notFound _ _ _ chain | .descriptor _ _ chain _ | .cycle chain | .tooDeep _ chain => chain

namespace Graph

variable {μ : Type} (g : Graph μ)

/-- An error of a graph with a root tells which reference has failed, at which position of the queue that
the evaluations on the way lead to. -/
inductive Locates (root : Link) (trail : List Evaluation) (reference : String) (position : Nat) :
    GraphError → Prop
  | notFound (h : g.evaluator.find? (g.resolvePath reference) = none) :
      Locates root trail reference position
        (.notFound reference (g.resolvePath reference) position
          (root.reference :: trail.map (·.reference)))
  | descriptor {descriptor cause} (h : g.Leads reference descriptor) :
      Locates root trail reference position
        (.descriptor reference position (root.reference :: trail.map (·.reference)) cause)
  /-- The reference leads back to the root or to a descriptor on the way. -/
  | cycle {descriptor p} (h : g.Leads reference descriptor)
      (hp : p ∈ root.descriptor :: trail.map (·.descriptor)) (hagrees : p.agrees descriptor = true) :
      Locates root trail reference position
        (.cycle (root.reference :: (trail.map (·.reference) ++ [reference])))
  /-- The chain is longer than permitted by one reference. -/
  | tooDeep {descriptor} (h : g.Leads reference descriptor)
      (hlength : (trail.map (·.reference) ++ [reference]).length = g.maxDepth + 1) :
      Locates root trail reference position
        (.tooDeep g.maxDepth (root.reference :: (trail.map (·.reference) ++ [reference])))

variable {g} {root : Link} {trail : List Evaluation} {reference : String} {position : Nat}
  {e : GraphError}

theorem links_of_root (hroot : g.root = some root) (below : List Link) :
    g.links below = root :: below := by
  rw [links, hroot]
  rfl

theorem chain_of_root (hroot : g.root = some root) (trail : List Evaluation) :
    g.chain (trail.map Evaluation.link) = root.reference :: trail.map (·.reference) := by
  rw [chain, links_of_root hroot, List.map_cons, List.map_map]
  rfl

/-- How a reference has failed can be read off the error. -/
theorem Fails.locates (hroot : g.root = some root)
    (h : g.Fails (trail.map Evaluation.link) position reference e)
    (hdepth : trail.length ≤ g.maxDepth) : g.Locates root trail reference position e := by
  have hchain := chain_of_root hroot trail
  cases h with
  | failed ha =>
    rw [hchain]
    exact .descriptor ha.leads
  | refused h =>
    cases h with
    | notFound h =>
      rw [hchain]
      exact .notFound h
    | @cycle _ link hleads hlink hagrees =>
      rw [hchain, List.cons_append]
      rw [links_of_root hroot] at hlink
      have hp : link.descriptor ∈ root.descriptor :: trail.map (·.descriptor) := by
        have hmem := List.mem_map_of_mem (f := Link.descriptor) hlink
        rw [List.map_cons, List.map_map] at hmem
        exact hmem
      exact .cycle hleads hp hagrees
    | tooDeep hleads _ hlimit =>
      rw [hchain, List.cons_append]
      rw [List.length_map] at hlimit
      refine .tooDeep hleads ?_
      simp only [List.length_append, List.length_map, List.length_singleton]
      omega

/-- The chain of an error reads from the root on. -/
theorem chainText_chain (h : g.Locates root trail reference position e) :
    chainText e.chain = " -> ".intercalate e.chain := by
  cases h <;> rfl

end Graph

/-- The error of a call on a graph with a root locates the reference that has failed: from one of the
references of the call, evaluations that were each queued by the one before lead to it, and the error
names them in its chain and the reference by its position in the last queue. -/
theorem error_located {μ : Type} {g : Graph μ} {root : Link} (hroot : g.root = some root)
    {c : Graph.Call} {s t : GraphState μ} {e : GraphError} (h : (g.call c).run s = .error e t) :
    ∃ trail reference position,
      Trail (s.evaluated t) c.task.entries trail (reference, position) ∧
      (∀ f ∈ trail, g.Leads f.reference f.descriptor) ∧
      g.Locates root trail reference position e ∧
      chainText e.chain = " -> ".intercalate e.chain := by
  obtain ⟨es, hfollows⟩ := Graph.follows_of_call_error h
  obtain ⟨trail, reference, position, htrail, hfails, hdepth⟩ := hfollows.exists_trail rfl
  have hlength : trail.length ≤ g.maxDepth := by simpa using hdepth
  rw [List.nil_append] at hfails
  have hlocates := hfails.locates hroot hlength
  rw [hfollows.evaluated_eq]
  exact ⟨trail, reference, position, htrail, fun f hf => hfollows.leads f (htrail.subset hf),
    hlocates, Graph.chainText_chain hlocates⟩

/-- A tree in which `a` requires `b` and `c`, and `c` requires `b` again and a file that is missing. -/
def missingTree : FileTree :=
  ((FileTree.empty.putEntry [['a']]
    (.file (Utf8.encode "prj.required(\"b\") prj.required(\"c\")"))).putEntry
    [['b']] (.file (Utf8.encode ""))).putEntry
    [['c']] (.file (Utf8.encode "prj.required(\"b\") prj.required(\"x\")"))

/-- The missing file is the second one in the queue of `c`, although `b` was skipped there. -/
theorem error_located_missingTree :
    ∃ t trail, ((scriptGraph missingTree ⟨['/']⟩ 64 (some ⟨"build", ⟨['/', 'r']⟩⟩)).call
        (.all ["b", "a"])).run .initial =
          .error (.notFound "x" ⟨['/', 'x']⟩ 2 ["build", "a", "c"]) t ∧
      Trail (GraphState.initial.evaluated t) [("b", 1), ("a", 2)] trail ("x", 2) ∧
      trail.map (·.reference) = ["a", "c"] := by
  have hfailure : Graph.failure? (((scriptGraph missingTree ⟨['/']⟩ 64
      (some ⟨"build", ⟨['/', 'r']⟩⟩)).call (.all ["b", "a"])).run .initial) =
      some (.notFound "x" ⟨['/', 'x']⟩ 2 ["build", "a", "c"]) := by
    decide +kernel
  cases hrun : ((scriptGraph missingTree ⟨['/']⟩ 64 (some ⟨"build", ⟨['/', 'r']⟩⟩)).call
      (.all ["b", "a"])).run .initial with
  | ok units t =>
    rw [hrun] at hfailure
    cases hfailure
  | error e t =>
    rw [hrun] at hfailure
    cases hfailure
    obtain ⟨trail, reference, position, htrail, -, hlocates, -⟩ := error_located rfl hrun
    generalize he : GraphError.notFound "x" ⟨['/', 'x']⟩ 2 ["build", "a", "c"] = e at hlocates
    cases hlocates with
    | notFound =>
      simp only [GraphError.notFound.injEq] at he
      obtain ⟨rfl, -, rfl, hchain⟩ := he
      exact ⟨t, trail, rfl, htrail, (List.cons.inj hchain).2.symm⟩
    | descriptor | cycle | tooDeep => cases he

end BuildComposition
