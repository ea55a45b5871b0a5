import BuildComposition.Proofs.Graph.Aliases
import BuildComposition.Proofs.Graph.RepeatedCalls
import BuildComposition.Proofs.Graph.Siblings

/-!
# References to what was evaluated before

A reference of the root to a descriptor that was evaluated before is skipped, in whatever spelling and
at whatever depth the descriptor was evaluated.  That the descriptor was visited is the last thing that
is looked at.  The checks before it are passed because at the root nothing but the root is on the stack,
because the root is never evaluated, and because something can only be evaluated where the permitted depth
is not zero.

## Main definitions

* `GraphState.skip`: what skipping references leaves

## Main results

* `Graph.Follows.skipAll`: references that are all skipped
* `Graph.History.evaluateAll_eq`: a call with references to what was evaluated before
* `Graph.Follows.of_alike`: what was noted before a call makes no difference to it
* `Graph.simulates_repeated`: a reference to what an earlier reference leads to can be left out
-/

namespace BuildComposition

variable {μ : Type}

/-! ## Skipping -/

namespace GraphState

/-- Notes that references are skipped. -/
def skip (s : GraphState μ) (references : List String) : GraphState μ :=
  references.foldl
    (fun s reference => s.note (.skipped reference) (Graph.change?_skipped reference)) s

variable (s : GraphState μ) (references : List String)

/-- That references are skipped is all that is noted, and nothing else changes. -/
theorem skip_eq : s.skip references =
    ⟨s.memory, (s.skip references).session, s.visited⟩ ∧
      (s.skip references).session.config = s.session.config ∧
      (s.skip references).session.frame = s.session.frame ∧
      (s.skip references).session.journal = s.session.journal ++ references.map .skipped := by
  induction references generalizing s with
  | nil => simp [skip]
  | cons reference rest ih =>
    obtain ⟨hstate, hconfig, hframe, hjournal⟩ := ih (s.note (.skipped reference))
    refine ⟨hstate, hconfig, hframe, hjournal.trans ?_⟩
    simp [note, Session.note]

end GraphState

namespace Graph

variable {g : Graph μ} {below : List Link} {task : Task} {s t : GraphState μ} {es : List Evaluation}

theorem Admits.of_leads {link : Link} (h : g.Admits below link) {reference : String}
    (hleads : g.Leads reference link.descriptor) : g.Admits below ⟨reference, link.descriptor⟩ :=
  ⟨hleads, h.apart, h.depth_lt⟩

/-- References to visited descriptors that may be required at a place are skipped. -/
theorem Follows.skipAll {references : List String} {s : GraphState μ}
    (h : ∀ reference ∈ references, ∃ d ∈ s.visited, g.Admits below ⟨reference, d⟩) (position : Nat) :
    g.Follows below (.all position references) s [] (.ok []) (s.skip references) := by
  induction references generalizing position s with
  | nil => exact .nil
  | cons reference rest ih =>
    obtain ⟨d, hvisited, hadmits⟩ := h reference List.mem_cons_self
    have hrest := ih (s := s.note (.skipped reference))
      (fun other hmem => h other (List.mem_cons_of_mem reference hmem)) (position + 1)
    exact .cons (.skipped hadmits hvisited) hrest

/-! ## What was evaluated may be required again -/

/-- Nothing is evaluated deeper than permitted. -/
theorem Follows.depth_lt {outcome : Except GraphError (List ResolvedUnit)}
    (h : g.Follows below task s es outcome t) : ∀ e ∈ es, e.depth < g.maxDepth := by
  induction h with
  | refused | skipped | nil => simp
  | failed ha => simpa [Link.evaluation] using ha.depth_lt
  | evaluated ha _ _ _ ih =>
    rintro e (_ | ⟨_, he⟩)
    · exact ha.depth_lt
    · exact ih e he
  | cons _ _ ih ih' =>
    intro e he
    exact (List.mem_append.mp he).elim (ih e) (ih' e)
  | stop _ ih => exact ih

theorem Series.depth_lt {references : List String} {units : List ResolvedUnit} {visited : List Path}
    (h : g.Series references es units visited) : ∀ e ∈ es, e.depth < g.maxDepth := by
  induction h with
  | nil => simp
  | call _ _ h' ih =>
    intro e he
    exact (List.mem_append.mp he).elim (ih e) (h'.follows.depth_lt e)

/-- The root may require again what was evaluated on the graph, in any spelling. -/
theorem Series.admits {references : List String} {units : List ResolvedUnit} {visited : List Path}
    (h : g.Series references es units visited) {e : Evaluation} (he : e ∈ es) {reference : String}
    (hleads : g.Leads reference e.descriptor) : g.Admits [] ⟨reference, e.descriptor⟩ := by
  have hapart : ∀ l ∈ g.links [], l.descriptor.agrees e.descriptor = false := by
    intro l hl
    rw [links, List.append_nil] at hl
    exact h.apart e he l (Option.mem_toList.mp hl)
  have hdepth := h.depth_lt e he
  exact ⟨hleads, hapart, Nat.zero_lt_of_lt hdepth⟩

/-- References to what was evaluated on a graph are skipped, and nothing else happens. -/
theorem History.evaluateAll_eq {declared : List String} (h : g.History declared es s)
    {references : List String} (hys : ∀ y ∈ references, ∃ e ∈ es, g.Leads y e.descriptor) :
    (g.evaluateAll references).run s = .ok [] (s.skip references) := by
  obtain ⟨units, hseries⟩ := h.exists_series
  have hskip : g.Follows [] (.all 1 references) s [] (.ok []) (s.skip references) := by
    refine .skipAll (fun y hy => ?_) 1
    obtain ⟨e, he, hleads⟩ := hys y hy
    exact ⟨e.descriptor, hseries.mem_visited_iff.mpr ⟨e, he, rfl⟩, hseries.admits he hleads⟩
  exact run_eq_of_follows (c := .all references) hskip

/-- On the stack nothing else happens either. -/
theorem History.walk_eq {declared : List String} {w : Walk μ} (h : g.History declared es w.state)
    (hstack : w.stack = g.root.toList) {references : List String}
    (hys : ∀ y ∈ references, ∃ e ∈ es, g.Leads y e.descriptor) :
    ∃ more, (g.walk (.all references)).run w =
      .ok [] ⟨w.state.skip references, w.stack, w.moments ++ more⟩ := by
  obtain ⟨fs, outcome, t, more, -, hcall, hwalk, -⟩ := exists_walk hstack (.all references)
  have hskip : ending outcome t = ending (.ok []) (w.state.skip references) :=
    hcall.symm.trans (h.evaluateAll_eq hys)
  obtain ⟨rfl, rfl⟩ := ending_inj hskip
  exact ⟨more, hwalk⟩

/-! ## What was noted makes no difference -/

/-- A task does the same whatever was noted before. -/
theorem Follows.of_alike {outcome : Except GraphError (List ResolvedUnit)}
    (h : g.Follows below task s es outcome t) (hg : g.evaluator.Blind) {s' : GraphState μ}
    (hs : s.Alike s') : ∃ es' t', g.Follows below task s' es' outcome t' ∧ t.Alike t' := by
  induction h generalizing s' with
  | refused h => exact ⟨_, _, .refused h, hs⟩
  | skipped ha hv => exact ⟨_, _, .skipped ha (hs.visited_eq ▸ hv), hs.note _ _ _ _⟩
  | @failed _ _ _ link _ _ _ _ ha hv hr =>
    obtain ⟨requests', t', hr', ht⟩ := hr.alike hg hs link.reference
    exact ⟨_, _, .failed ha (hs.visited_eq ▸ hv) hr', ht⟩
  | @evaluated _ _ _ link _ _ frame _ _ _ _ ha hv hr _ ih =>
    obtain ⟨requests', t', hr', ht⟩ := hr.alike hg hs link.reference
    obtain ⟨es', u', h', hu⟩ := ih (ht.descend link.reference link.reference frame.required)
    exact ⟨_, _, .evaluated ha (hs.visited_eq ▸ hv) hr' h', hu⟩
  | nil => exact ⟨_, _, .nil, hs⟩
  | cons _ _ ih ih' =>
    obtain ⟨es', t', h, ht⟩ := ih hs
    obtain ⟨fs', u', h', hu⟩ := ih' ht
    exact ⟨_, _, .cons h h', hu⟩
  | stop _ ih =>
    obtain ⟨es', t', h, ht⟩ := ih hs
    exact ⟨_, _, .stop h, ht⟩

/-! ## Leaving out a reference -/

/-- Where a task succeeds, all that its references lead to may be required at the place. -/
theorem Completes.admits {units : List ResolvedUnit} (h : g.Completes below task s es units t) :
    ∀ reference ∈ task.references, ∀ d, g.Leads reference d → g.Admits below ⟨reference, d⟩ := by
  induction h with
  | skipped ha | evaluated ha =>
    intro reference hmem d hleads
    rw [List.mem_singleton.mp hmem] at hleads ⊢
    rw [hleads.unique ha.leads]
    exact ha
  | nil => simp [Task.references]
  | cons _ _ ih ih' =>
    intro reference hmem
    rcases List.mem_cons.mp hmem with rfl | hmem
    · exact ih reference List.mem_cons_self
    · exact ih' reference hmem

/-- An error is the same, or it is about a reference that has moved up by one position. -/
def MovedUp (chain : List String) (e e' : GraphError) : Prop := e = e' ∨ e = e'.shift chain 1

theorem shift_shift (e : GraphError) (chain : List String) (count : Nat) :
    (e.shift chain count).shift chain 1 = e.shift chain (count + 1) := by
  cases e with
  | notFound reference resolved position c =>
    by_cases hc : c = chain <;> simp [GraphError.shift, hc, Nat.add_assoc]
  | descriptor reference position c cause =>
    by_cases hc : c = chain <;> simp [GraphError.shift, hc, Nat.add_assoc]
  | cycle | tooDeep => rfl

/-- A reference of the root can be left out if an earlier one leads to the same descriptor. -/
theorem simulates_repeated (hg : g.evaluator.Blind) {first : List String} {a b : String}
    {d : Path} (ha : a ∈ first) (hleads : g.Leads a d) (hleads' : g.Leads b d) (last : List String) :
    Simulates GraphState.Alike (MovedUp (g.chain [])) Eq (g.call (.all (first ++ b :: last)))
      (g.call (.all (first ++ last))) := by
  intro s s' hs
  obtain ⟨es, outcome, t, hfirst, -⟩ := g.call_derives (.all first) s
  obtain ⟨es', t', hfirst', ht⟩ := hfirst.of_alike hg hs
  cases outcome with
  | error e =>
    have hlong := hfirst.append_of_error (b :: last)
    have hshort := hfirst'.append_of_error last
    rw [run_eq_of_follows (c := .all (first ++ b :: last)) hlong,
      run_eq_of_follows (c := .all (first ++ last)) hshort]
    exact .error (.inl rfl) ht
  | ok units =>
    -- the earlier reference was admitted, so that the repeated one comes to be skipped
    have hadmits := (hfirst.completes.admits a ha d hleads).of_leads hleads'
    have hvisited : d ∈ t.visited := by
      obtain ⟨p, hp, hleads''⟩ := hfirst.completes.leadInto.1 a ha
      rwa [hleads.unique hleads'']
    obtain ⟨fs, outcome, u, hlast, -⟩ := g.call_derives (.all last) (t.note (.skipped b))
    have hskipped : (t.note (.skipped b)).Alike t' :=
      ⟨ht.memory_eq, ht.visited_eq, ht.session.config_eq, ht.session.frame_eq⟩
    obtain ⟨fs', u', hlast', hu⟩ := hlast.of_alike hg hskipped
    have hrest : g.Follows [] (.all (1 + first.length) (b :: last)) t ([] ++ fs)
        ((outcome.mapError (·.shift (g.chain []) (first.length + 1))).map ([] ++ ·)) u :=
      .cons (.skipped hadmits hvisited) (hlast.shift (first.length + 1))
    have hlong := hfirst.append hrest
    have hshort := hfirst'.append (hlast'.shift first.length)
    rw [run_eq_of_follows (c := .all (first ++ b :: last)) hlong,
      run_eq_of_follows (c := .all (first ++ last)) hshort]
    cases outcome with
    | ok more => exact .ok rfl hu
    | error e => exact .error (.inr (shift_shift e _ _).symm) hu

end Graph

end BuildComposition
