import BuildComposition.Proofs.Graph.Reachability
import BuildComposition.Proofs.Graph.RepeatedCalls

/-!
# Descriptors that are skipped

A reference is skipped if its descriptor was visited before, and a descriptor counts as visited from
the moment on when its evaluation begins.  So a descriptor that is skipped was evaluated exactly
once, but this evaluation need not have returned: it may be what an earlier call on the graph has
failed with.  Only then does a call succeed although one of its references names a descriptor that
was never evaluated to its end.

## Main definitions

* `Returned`, `Failed`: how the evaluation of a descriptor has ended, if it has

## Main results

* `Recounts.returned_or_failed`, `Recounts.not_both`: what was visited has returned or has failed
* `Graph.Chronicle.not_failed_of_skipped`: nothing is skipped in a call after a descriptor has failed
* `skipped_evaluated`: what is known of the evaluation of a descriptor that is skipped
* `skipped_failed`: a descriptor that has failed is skipped
-/

namespace BuildComposition

/-- The evaluation of the descriptor has returned. -/
def Returned (moments : List Moment) (descriptor : Path) : Prop :=
  ∃ m ∈ moments, m.occurrence = .returned descriptor

/-- The evaluation of the descriptor has failed. -/
def Failed (moments : List Moment) (descriptor : Path) : Prop :=
  ∃ m ∈ moments, m.occurrence = .failed descriptor

theorem failed_append {moments more : List Moment} {descriptor : Path} :
    Failed (moments ++ more) descriptor ↔ Failed moments descriptor ∨ Failed more descriptor := by
  simp only [Failed, List.mem_append, or_and_right, exists_or]

namespace Recounts

variable {visited after : List Path} {moments : List Moment} {descriptor : Path}

/-- What was visited before is not evaluated. -/
theorem evaluated?_ne (h : Recounts visited moments after) (hd : descriptor ∈ visited) :
    ∀ m ∈ moments, m.occurrence.evaluated? ≠ some descriptor := by
  induction h with
  | nil => simp
  | @cons visited m moments after hfits _ ih =>
    intro n hn heq
    rcases List.mem_cons.mp hn with rfl | hn
    · cases ho : n.occurrence <;> rw [ho] at hfits heq <;> cases heq
      · exact hfits hd
      · exact hfits hd
    · exact ih (List.mem_append_right _ hd) n hn heq

/-- What is visited in the end was visited before, or has returned, or has failed. -/
theorem returned_or_failed (h : Recounts visited moments after) (hd : descriptor ∈ after) :
    descriptor ∈ visited ∨ Returned moments descriptor ∨ Failed moments descriptor := by
  induction h with
  | nil => exact .inl hd
  | @cons visited m moments after _ _ ih =>
    rcases ih hd with hmem | ⟨n, hn, ho⟩ | ⟨n, hn, ho⟩
    · rcases List.mem_append.mp hmem with hnew | hold
      · cases ho : m.occurrence <;> rw [ho] at hnew <;>
          simp only [Occurrence.evaluated?, Option.toList, List.mem_singleton, List.not_mem_nil]
            at hnew
        · exact .inr (.inl ⟨m, List.mem_cons_self, hnew ▸ ho⟩)
        · exact .inr (.inr ⟨m, List.mem_cons_self, hnew ▸ ho⟩)
      · exact .inl hold
    · exact .inr (.inl ⟨n, List.mem_cons_of_mem m hn, ho⟩)
    · exact .inr (.inr ⟨n, List.mem_cons_of_mem m hn, ho⟩)

/-- No evaluation has both returned and failed, since nothing is evaluated twice. -/
theorem not_both (h : Recounts visited moments after) (hr : Returned moments descriptor) :
    ¬Failed moments descriptor := by
  induction h with
  | nil =>
    obtain ⟨m, hm, -⟩ := hr
    cases hm
  | @cons visited m moments after _ h ih =>
    rintro ⟨n, hn, hfailed⟩
    obtain ⟨l, hl, hreturned⟩ := hr
    -- the one that came first has marked the descriptor as visited
    rcases List.mem_cons.mp hl with rfl | hl' <;> rcases List.mem_cons.mp hn with rfl | hn'
    · rw [hreturned] at hfailed
      cases hfailed
    · refine h.evaluated?_ne ?_ n hn' (by rw [hfailed]; rfl)
      simp [hreturned, Occurrence.evaluated?]
    · refine h.evaluated?_ne ?_ l hl' (by rw [hreturned]; rfl)
      simp [hfailed, Occurrence.evaluated?]
    · exact ih ⟨l, hl', hreturned⟩ ⟨n, hn', hfailed⟩

/-- Where something happens the record up to there tells what was visited. -/
theorem exists_before {before rest : List Moment} {m : Moment}
    (h : Recounts visited (before ++ m :: rest) after) :
    ∃ between, Recounts visited before between ∧ m.occurrence.Fits between := by
  induction before generalizing visited with
  | nil =>
    cases h with
    | cons hfits => exact ⟨visited, .nil _, hfits⟩
  | cons n before ih =>
    cases h with
    | cons hfits h =>
      obtain ⟨between, hbefore, hm⟩ := ih h
      exact ⟨between, .cons hfits hbefore, hm⟩

/-- A descriptor that was visited, but has not failed of late, either has returned or has failed
earlier. -/
theorem xor_of_mem {earlier late : List Moment} (h : Recounts [] (earlier ++ late) after)
    (hd : descriptor ∈ after) (hlate : ¬Failed late descriptor) :
    Xor (Returned (earlier ++ late) descriptor) (Failed earlier descriptor) := by
  by_cases hfailed : Failed earlier descriptor
  · refine .inr ⟨hfailed, ?_⟩
    intro hreturned
    exact h.not_both hreturned (failed_append.mpr (.inl hfailed))
  · refine .inl ⟨?_, hfailed⟩
    rcases h.returned_or_failed hd with hmem | hreturned | hany
    · cases hmem
    · exact hreturned
    · exact absurd (failed_append.mp hany) (not_or.mpr ⟨hfailed, hlate⟩)

end Recounts

namespace Graph.Chronicle

variable {μ : Type} {g : Graph μ} {below : List Link} {visited after : List Path}
  {outcome : Except GraphError (List ResolvedUnit)} {moments : List Moment}

/-- Nothing is skipped in a call after a descriptor has failed in it. -/
theorem not_failed_of_skipped (h : g.Chronicle below visited outcome after moments)
    {before rest : List Moment} {m : Moment} {descriptor : Path}
    (hm : moments = before ++ m :: rest) (ho : m.occurrence = .skipped descriptor) (d : Path) :
    ¬Failed before d := by
  rintro ⟨n, hn, hfailed⟩
  have hhalts := h.halts
  rw [hm, List.pairwise_append] at hhalts
  have hpopped := hhalts.2.2 n hn m List.mem_cons_self (by rw [hfailed]; rfl)
  rw [ho] at hpopped
  cases hpopped

end Graph.Chronicle

/-- A reference is skipped only if its descriptor was evaluated earlier on the graph, and a call
succeeds only if each of its references and of those queued in it names a descriptor that was
evaluated.  This one evaluation has returned, unless it is what an earlier call has failed with. -/
theorem skipped_evaluated {μ : Type} {g : Graph μ} {w : Walk μ} (h : g.Reached w)
    (c : Graph.Call) :
    ∃ outcome t more,
      (g.walk c).run w = Graph.ending outcome ⟨t, w.stack, w.moments ++ more⟩ ∧
      (∀ before m rest descriptor, more = before ++ m :: rest →
        m.occurrence = .skipped descriptor →
        Xor (Returned (w.moments ++ before) descriptor) (Failed w.moments descriptor)) ∧
      ∀ units, outcome = .ok units →
        ∀ reference ∈ c.task.references ++ (w.state.evaluated t).flatMap (·.queue),
          ∃ descriptor, g.Leads reference descriptor ∧
            Xor (Returned (w.moments ++ more) descriptor) (Failed w.moments descriptor) := by
  obtain ⟨es, outcome, t, more, hfollows, -, hrun, hchronicle⟩ :=
    Graph.exists_walk h.ready.stack_eq c
  have hrecounts := h.recounts.append hchronicle.recounts
  refine ⟨outcome, t, more, hrun, ?_, ?_⟩
  · intro before m rest descriptor hmore ho
    have hsplit : w.moments ++ more = (w.moments ++ before) ++ m :: rest := by
      rw [hmore, List.append_assoc]
    rw [hsplit] at hrecounts
    obtain ⟨between, hbefore, hfits⟩ := hrecounts.exists_before
    rw [ho] at hfits
    exact hbefore.xor_of_mem hfits (hchronicle.not_failed_of_skipped hmore ho descriptor)
  · rintro units rfl reference hreference
    rw [hfollows.evaluated_eq] at hreference
    obtain ⟨hdeclared, hqueues⟩ := hfollows.completes.leadInto
    have hleads : g.LeadInto (c.task.references ++ es.flatMap (·.queue)) t.visited := by
      refine hdeclared.append ?_
      intro r hr
      obtain ⟨e, he, hqueued⟩ := List.mem_flatMap.mp hr
      exact hqueues e he r hqueued
    obtain ⟨descriptor, hvisited, hd⟩ := hleads reference hreference
    refine ⟨descriptor, hd, hrecounts.xor_of_mem hvisited ?_⟩
    -- a call in which a descriptor fails does not succeed
    rintro ⟨m, hm, hfailed⟩
    have hfine := hchronicle.isFailure_eq_false hm
    rw [hfailed] at hfine
    cases hfine

/-- A tree in which `a` fails and `b` does nothing. -/
def failingTree : FileTree :=
  (FileTree.empty.putEntry [['a']] (.file (Utf8.encode "error(\"boom\")"))).putEntry
    [['b']] (.file (Utf8.encode ""))

/-- The graph of this tree. -/
def failingGraph : Graph Script.Memory := scriptGraph failingTree ⟨['/']⟩ 64 none

/-- The state of this graph before the first call. -/
def failingGraph.start : Walk Script.Memory := ⟨.initial, [], []⟩

theorem failingGraph.reached_start : failingGraph.Reached start := .fresh _ _ rfl

/-- A descriptor that has returned is skipped the second time. -/
theorem skipped_evaluated_twice :
    ∃ units t more, (failingGraph.walk (.all ["b", "b"])).run failingGraph.start =
        .ok units ⟨t, [], more⟩ ∧
      more.map (·.occurrence) =
        [.reached "b", .returned ⟨['/', 'b']⟩, .reached "b", .skipped ⟨['/', 'b']⟩] ∧
      ∃ descriptor, failingGraph.Leads "b" descriptor ∧ Returned more descriptor := by
  obtain ⟨outcome, t, more, hrun, -, hok⟩ :=
    skipped_evaluated failingGraph.reached_start (.all ["b", "b"])
  have hrecord : (match (failingGraph.walk (.all ["b", "b"])).run failingGraph.start with
      | .ok _ w => some (w.moments.map (·.occurrence))
      | .error _ _ => none) =
      some [.reached "b", .returned ⟨['/', 'b']⟩, .reached "b", .skipped ⟨['/', 'b']⟩] := by
    decide +kernel
  rw [hrun] at hrecord
  cases outcome with
  | error e => cases hrecord
  | ok units =>
    refine ⟨units, t, more, hrun, Option.some.inj hrecord, ?_⟩
    have hreference : "b" ∈ (Graph.Call.all ["b", "b"]).task.references :=
      List.mem_cons_self
    obtain ⟨descriptor, hleads, ⟨hreturned, -⟩ | ⟨⟨_, hm, -⟩, -⟩⟩ :=
      hok units rfl "b" (List.mem_append_left _ hreference)
    · exact ⟨descriptor, hleads, hreturned⟩
    · cases hm

/-- A descriptor that has failed is skipped by the next call, which succeeds although its reference
names nothing else. -/
theorem skipped_failed :
    ∃ w units v, failingGraph.Reached w ∧
      (failingGraph.walk (.all ["a"])).run w = .ok units v ∧
      failingGraph.Leads "a" ⟨['/', 'a']⟩ ∧
      (∃ m ∈ v.moments, m.occurrence = .skipped ⟨['/', 'a']⟩) ∧
      Failed v.moments ⟨['/', 'a']⟩ ∧ ¬Returned v.moments ⟨['/', 'a']⟩ := by
  have hrecord : (match (failingGraph.walk (.all ["a"])).run failingGraph.start with
      | .ok _ _ => none
      | .error _ w =>
        match (failingGraph.walk (.all ["a"])).run w with
        | .ok _ v => some (v.moments.map (·.occurrence))
        | .error _ _ => none) =
      some [.reached "a", .failed ⟨['/', 'a']⟩, .reached "a", .skipped ⟨['/', 'a']⟩] := by
    decide +kernel
  cases hfirst : (failingGraph.walk (.all ["a"])).run failingGraph.start with
  | ok units w =>
    rw [hfirst] at hrecord
    cases hrecord
  | error e w =>
    rw [hfirst] at hrecord
    simp only at hrecord
    cases hsecond : (failingGraph.walk (.all ["a"])).run w with
    | error e v =>
      rw [hsecond] at hrecord
      cases hrecord
    | ok units v =>
      rw [hsecond] at hrecord
      have hmoments : v.moments.map (·.occurrence) =
          [.reached "a", .failed ⟨['/', 'a']⟩, .reached "a", .skipped ⟨['/', 'a']⟩] :=
        Option.some.inj hrecord
      have hmem : ∀ o, (∃ m ∈ v.moments, m.occurrence = o) ↔
          o ∈ v.moments.map (·.occurrence) := fun o => List.mem_map.symm
      have hending : (failingGraph.walk (.all ["a"])).run failingGraph.start =
          Graph.ending (.error e) w := hfirst
      refine ⟨w, units, v, .called failingGraph.reached_start hending, hsecond, ?_, ?_, ?_, ?_⟩
      · show _ = _
        decide +kernel
      · rw [hmem, hmoments]
        decide
      · rw [Failed, hmem, hmoments]
        decide
      · rw [Returned, hmem, hmoments]
        decide

end BuildComposition
