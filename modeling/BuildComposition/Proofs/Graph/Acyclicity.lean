import BuildComposition.Proofs.Graph.Reachability
import BuildComposition.Proofs.Graph.Trails

/-!
# Cycles of references

A reference is refused as a cycle if it leads back to a descriptor whose queue is being followed, or to
the root.  As each of these was queued by the one before, the descriptor then requires itself.

The other direction cannot be read off the links that lead to a reference, because a descriptor that was
visited before is skipped.  It needs the order in which queues are *finished*: when a queue has been
followed to its end, everything that it leads to has been finished before, so that no requirement leads
from a descriptor to one that is finished later.

## Main definitions

* `Graph.Needs`: what requires what, the root included
* `Graph.Lineage`: links of which each was queued by the one before
* `Graph.Finished`: evaluations in the order in which their queues were finished, the last one first

## Main results

* `Graph.Follows.exists_lineage`: where a reference is refused
* `Graph.Completes.exists_finished`: what a call finishes
* `Graph.Finished.exists_rank`: no requirement leads to something that is finished later
* `Graph.Series.not_transGen`: where calls succeed nothing requires itself
-/

namespace BuildComposition.Graph

open Relation

variable {μ : Type} (g : Graph μ)

/-! ## Requirements -/

/-- What requires what, where descriptors are told apart by their components: the root requires what the
references lead to that were declared to the graph, and a descriptor what those lead to that it has
queued. -/
inductive Needs (declared : List String) (es : List Evaluation) :
    List Path.Component → List Path.Component → Prop
  | root {link reference descriptor} (hroot : link ∈ g.root) (h : reference ∈ declared)
      (hleads : g.Leads reference descriptor) :
      Needs declared es link.descriptor.components descriptor.components
  | queued {e reference descriptor} (he : e ∈ es) (h : reference ∈ e.queue)
      (hleads : g.Leads reference descriptor) :
      Needs declared es e.descriptor.components descriptor.components

/-- References lead along links to a reference: the first link is one of the references, each later one
was queued by the descriptor of the one before, and so was the reference by that of the last. -/
inductive Lineage (es : List Evaluation) : List String → List Link → String → Prop
  | here {references reference} (h : reference ∈ references) : Lineage es references [] reference
  | through {references link e below reference} (h : link.reference ∈ references)
      (hleads : g.Leads link.reference link.descriptor) (he : e ∈ es)
      (hdescriptor : e.descriptor = link.descriptor) (hbelow : Lineage es e.queue below reference) :
      Lineage es references (link :: below) reference

variable {g}

namespace Lineage

variable {es fs : List Evaluation} {references more : List String} {below : List Link}
  {reference : String}

theorem mono (h : g.Lineage es references below reference) (hes : es ⊆ fs)
    (hreferences : references ⊆ more) : g.Lineage fs more below reference := by
  induction h generalizing more with
  | here h => exact .here (hreferences h)
  | through h hleads he hdescriptor _ ih =>
    exact .through (hreferences h) hleads (hes he) hdescriptor (ih (List.Subset.refl _))

/-- What requires all that the references lead to requires what they lead to along the links. -/
theorem transGen (h : g.Lineage es references below reference) {declared : List String}
    {descriptor : Path} (hleads : g.Leads reference descriptor) {a : List Path.Component}
    (ha : ∀ r ∈ references, ∀ p, g.Leads r p → g.Needs declared es a p.components) :
    TransGen (g.Needs declared es) a descriptor.components := by
  induction h generalizing a with
  | here h => exact .single (ha _ h _ hleads)
  | through h hlink he hdescriptor _ ih =>
    rw [← hdescriptor] at hlink
    exact .head (ha _ h _ hlink) (ih hleads fun r hr p hp => .queued he hr hp)

/-- Every link requires what the references lead to along the links. -/
theorem transGen_of_mem (h : g.Lineage es references below reference) {declared : List String}
    {descriptor : Path} (hleads : g.Leads reference descriptor) :
    ∀ entry ∈ below,
      TransGen (g.Needs declared es) entry.descriptor.components descriptor.components := by
  induction h with
  | here => simp
  | through _ _ he hdescriptor hbelow ih =>
    rintro entry (_ | ⟨_, hentry⟩)
    · rw [← hdescriptor]
      exact hbelow.transGen hleads fun r hr p hp => .queued he hr hp
    · exact ih hleads entry hentry

end Lineage

/-! ## Where a reference is refused -/

/-- What leads along a trail leads along the links to the evaluated descriptors. -/
theorem lineage_of_trail {es : List Evaluation} {entries : List (String × Nat)}
    {trail : List Evaluation} {entry : String × Nat} (h : Trail es entries trail entry)
    (hleads : ∀ e ∈ es, g.Leads e.reference e.descriptor) :
    g.Lineage es (entries.map (·.1)) (trail.map Evaluation.link) entry.1 := by
  induction h with
  | here h => exact .here (List.mem_map_of_mem h)
  | through h he _ ih =>
    rw [Evaluation.entries, List.zipIdx_map_fst] at ih
    exact .through (List.mem_map_of_mem h) (hleads _ he) he rfl ih

/-- A call that fails has been refused a reference at the end of a lineage, unless a descriptor has
failed. -/
theorem Follows.exists_lineage {below : List Link} {task : Task} {s t : GraphState μ}
    {es : List Evaluation} {outcome : Except GraphError (List ResolvedUnit)}
    (h : g.Follows below task s es outcome t) {e : GraphError} (he : outcome = .error e) :
    (∃ more reference position, g.Lineage es task.references more reference ∧
      g.Refuses (below ++ more) position reference e) ∨
    ∃ reference position chain cause, e = .descriptor reference position chain cause := by
  obtain ⟨trail, reference, position, htrail, hfails, -⟩ := h.exists_trail he
  have hlineage := lineage_of_trail htrail h.leads
  rw [Task.map_fst_entries] at hlineage
  cases hfails with
  | refused hrefuses => exact .inl ⟨_, reference, position, hlineage, hrefuses⟩
  | failed => exact .inr ⟨_, _, _, _, rfl⟩

/-! ## The order of finishing -/

variable (g) in
/-- Descriptors that agree are equal. -/
def Canonical : Prop :=
  ∀ {r r' : String} {p q : Path}, g.Leads r p → g.Leads r' q → p.agrees q = true → p = q

variable (g) in
/-- Evaluations in the order in which their queues were finished, the last one first: each queue leads to
what was finished before. -/
inductive Finished : List Evaluation → Prop
  | nil : Finished []
  | cons {e done} (hleads : g.Leads e.reference e.descriptor)
      (hqueue : g.LeadInto e.queue (done.map (·.descriptor)))
      (hapart : ∀ f ∈ done, f.descriptor.components ≠ e.descriptor.components)
      (h : Finished done) : Finished (e :: done)

theorem Finished.leads {done : List Evaluation} (h : g.Finished done) :
    ∀ e ∈ done, g.Leads e.reference e.descriptor := by
  induction h with
  | nil => simp
  | cons hleads _ _ _ ih =>
    rintro e (_ | ⟨_, he⟩)
    · exact hleads
    · exact ih e he

/-- What was visited at a place: the descriptors that are finished, and those on the way to the place. -/
def VisitedAt (s : GraphState μ) (done : List Evaluation) (below : List Link) : Prop :=
  ∀ p, p ∈ s.visited ↔ (∃ e ∈ done, e.descriptor = p) ∨ ∃ l ∈ below, l.descriptor = p

namespace VisitedAt

variable {s t : GraphState μ} {done : List Evaluation} {below : List Link}

/-- While the queue of a descriptor is followed, the descriptor is on the way. -/
theorem descend (hs : VisitedAt s done below) {kind : DescriptorKind} {depth : Nat} {link : Link}
    {requests : List Request} {result : Except ScriptError Frame}
    (hr : g.Enters kind depth link s requests result t) (reference : String) (queue : List String) :
    VisitedAt (t.descend reference queue) done (below ++ [link]) := by
  intro p
  rw [GraphState.visited_descend, hr.visited_eq, List.mem_cons, hs p]
  simp only [List.mem_append, List.mem_singleton, or_and_right, exists_or, exists_eq_left]
  rw [eq_comm, or_comm, or_assoc]

/-- What a call has evaluated is finished after it. -/
theorem completes (hs : VisitedAt s done below) {task : Task} {es done' : List Evaluation}
    {units : List ResolvedUnit} (h : g.Completes below task s es units t)
    (hperm : done'.Perm (es ++ done)) : VisitedAt t done' below := by
  intro p
  rw [h.follows.mem_visited_iff, hs p]
  simp only [hperm.mem_iff, List.mem_append, or_and_right, exists_or]
  rw [or_comm, or_assoc]

end VisitedAt

/-- A call that succeeds finishes what it evaluates, and before that what its references lead to. -/
theorem Completes.exists_finished (hg : g.Canonical) {below : List Link} {task : Task}
    {s t : GraphState μ} {es : List Evaluation} {units : List ResolvedUnit}
    (h : g.Completes below task s es units t) {done : List Evaluation} (hdone : g.Finished done)
    (hs : VisitedAt s done below) :
    ∃ done', g.Finished done' ∧ done'.Perm (es ++ done) ∧
      g.LeadInto task.references (done'.map (·.descriptor)) := by
  induction h generalizing done with
  | @skipped below _ _ link s ha hv =>
    refine ⟨done, hdone, .refl _, ?_⟩
    -- a visited descriptor is finished, as one on the way to the place would be a cycle
    rcases (hs _).mp hv with ⟨e, he, hdescriptor⟩ | ⟨l, hl, hdescriptor⟩
    · simpa [LeadInto, Task.references] using ⟨e, he, hdescriptor ▸ ha.leads⟩
    · have hapart := ha.apart l (List.mem_append_right _ hl)
      simp [Path.agrees, hdescriptor] at hapart
  | @evaluated below kind _ link s requests frame t es _ _ ha hv hr h ih =>
    obtain ⟨done', hdone', hperm, hqueue⟩ := ih hdone (hs.descend hr _ _)
    rw [Task.references, hr.required_eq] at hqueue
    have hapart : ∀ f ∈ done', f.descriptor.components ≠ link.descriptor.components := by
      intro f hf hcomponents
      rcases List.mem_append.mp (hperm.subset hf) with hf | hf
      · have hfalse := h.follows.apart f hf link (List.mem_append_right _ (by simp))
        simp [Path.agrees, hcomponents] at hfalse
      · have heq := hg (hdone.leads f hf) ha.leads (by simp [Path.agrees, hcomponents])
        exact hv ((hs _).mpr (.inl ⟨f, hf, heq⟩))
    refine ⟨_ :: done', .cons (e := link.evaluation below.length kind requests) ha.leads hqueue hapart
      hdone', hperm.cons _, ?_⟩
    simpa [LeadInto, Task.references, Link.evaluation] using .inl ha.leads
  | nil => exact ⟨done, hdone, .refl _, by simp [LeadInto, Task.references]⟩
  | @cons _ _ _ _ _ es _ _ fs _ _ h _ ih ih' =>
    obtain ⟨done', hdone', hperm, hfirst⟩ := ih hdone hs
    obtain ⟨done'', hdone'', hperm', hrest⟩ := ih' hdone' (hs.completes h hperm)
    have hsub : done' ⊆ done'' := fun e he =>
      hperm'.symm.subset (List.mem_append_right _ he)
    -- the later references are finished last, but their evaluations come last in the journal
    have hswap : (fs ++ (es ++ done)).Perm (es ++ fs ++ done) := by
      rw [← List.append_assoc]
      exact List.perm_append_comm.append_right done
    exact ⟨done'', hdone'', (hperm'.trans (hperm.append_left fs)).trans hswap,
      (hfirst.mono (List.map_subset _ hsub)).append hrest⟩

/-- Where calls have succeeded, what was visited is finished. -/
theorem Series.visitedAt {references : List String} {es done : List Evaluation}
    {units : List ResolvedUnit} {visited : List Path} (h : g.Series references es units visited)
    (hperm : done.Perm es) {s : GraphState μ} (hs : s.visited = visited) : VisitedAt s done [] := by
  intro p
  rw [hs, h.mem_visited_iff]
  simp [hperm.mem_iff]

theorem Series.exists_finished (hg : g.Canonical) {references : List String} {es : List Evaluation}
    {units : List ResolvedUnit} {visited : List Path} (h : g.Series references es units visited) :
    ∃ done, g.Finished done ∧ done.Perm es ∧ g.LeadInto references (done.map (·.descriptor)) := by
  induction h with
  | nil => exact ⟨[], .nil, .refl _, by simp [LeadInto]⟩
  | @call references es _ _ s c fs _ _ h hs h' ih =>
    obtain ⟨done, hdone, hperm, hdeclared⟩ := ih
    obtain ⟨done', hdone', hperm', hcall⟩ := h'.exists_finished hg hdone (h.visitedAt hperm hs)
    have hsub : done ⊆ done' := fun e he => hperm'.symm.subset (List.mem_append_right _ he)
    exact ⟨done', hdone', (hperm'.trans (hperm.append_left fs)).trans List.perm_append_comm,
      (hdeclared.mono (List.map_subset _ hsub)).append hcall⟩

/-! ## Ranks -/

theorem exists_rank_above {α : Type} [DecidableEq α] {rank : α → Nat} {n : Nat}
    (h : ∀ a, rank a ≤ n) (top : α) :
    ∃ rank' : α → Nat, (∀ a, rank' a ≤ n + 1) ∧ rank' top = n + 1 ∧
      ∀ a, a ≠ top → rank' a = rank a := by
  refine ⟨fun a => if a = top then n + 1 else rank a, fun a => ?_, if_pos rfl, fun a ha => if_neg ha⟩
  have hle := h a
  dsimp only
  split <;> omega

theorem not_transGen_of_rank {α : Type} {r : α → α → Prop} (rank : α → Nat)
    (h : ∀ a b, r a b → rank b < rank a) (a : α) : ¬TransGen r a a := by
  have hlt : ∀ b, TransGen r a b → rank b < rank a := by
    intro b hb
    induction hb with
    | single hab => exact h _ _ hab
    | tail _ hbc ih => exact Nat.lt_trans (h _ _ hbc) ih
  exact fun hcycle => Nat.lt_irrefl _ (hlt a hcycle)

namespace Finished

variable {done : List Evaluation}

theorem leadInto (h : g.Finished done) :
    ∀ e ∈ done, g.LeadInto e.queue (done.map (·.descriptor)) := by
  induction h with
  | nil => simp
  | @cons e done _ hqueue _ _ ih =>
    have hsub : done.map (·.descriptor) ⊆ (e :: done).map (·.descriptor) :=
      List.subset_cons_self _ _
    rintro f (_ | ⟨_, hf⟩)
    · exact hqueue.mono hsub
    · exact (ih f hf).mono hsub

/-- No requirement leads from a descriptor to one that is finished later. -/
theorem exists_rank (h : g.Finished done) :
    ∃ rank : List Path.Component → Nat, (∀ c, rank c ≤ done.length) ∧
      ∀ e ∈ done, ∀ r ∈ e.queue, ∀ p, g.Leads r p →
        rank p.components < rank e.descriptor.components := by
  induction h with
  | nil => exact ⟨fun _ => 0, by simp, by simp⟩
  | @cons top done _ hqueue hapart hdone ih =>
    obtain ⟨rank, hle, hlt⟩ := ih
    obtain ⟨rank', hle', htop, hsame⟩ := exists_rank_above hle top.descriptor.components
    refine ⟨rank', by simpa using hle', ?_⟩
    rintro e (_ | ⟨_, he⟩) r hr p hleads
    -- what the last one leads to was finished before, and has a rank up to the length
    · obtain ⟨f, hf, rfl⟩ := hqueue.exists_evaluation hr hleads
      rw [htop, hsame _ (hapart f hf)]
      exact Nat.lt_succ_of_le (hle _)
    -- no queue of what was finished before leads to the last one
    · obtain ⟨f, hf, rfl⟩ := (hdone.leadInto e he).exists_evaluation hr hleads
      rw [hsame _ (hapart f hf), hsame _ (hapart e he)]
      exact hlt e he r hr _ hleads

end Finished

/-- Nothing that a series of calls has evaluated requires itself, and neither does the root. -/
theorem Series.not_transGen (hg : g.Canonical) {references : List String} {es : List Evaluation}
    {units : List ResolvedUnit} {visited : List Path} (h : g.Series references es units visited)
    (a : List Path.Component) : ¬TransGen (g.Needs references es) a a := by
  obtain ⟨done, hdone, hperm, hdeclared⟩ := h.exists_finished hg
  obtain ⟨rank, hle, hlt⟩ := hdone.exists_rank
  have hne : ∀ l ∈ g.root, ∀ e ∈ done, e.descriptor.components ≠ l.descriptor.components := by
    intro l hl e he heq
    have hapart := h.apart e (hperm.subset he) l hl
    simp [Path.agrees, heq] at hapart
  obtain ⟨rank', hsame, habove⟩ : ∃ rank' : List Path.Component → Nat,
      (∀ e ∈ done, rank' e.descriptor.components = rank e.descriptor.components) ∧
      ∀ l ∈ g.root, ∀ e ∈ done, rank' e.descriptor.components < rank' l.descriptor.components := by
    cases hlink : g.root with
    | none => exact ⟨rank, fun _ _ => rfl, by simp⟩
    | some link =>
      obtain ⟨rank', -, htop, hsame⟩ := exists_rank_above hle link.descriptor.components
      refine ⟨rank', fun e he => hsame _ (hne link hlink e he), ?_⟩
      rintro l ⟨⟩ e he
      rw [htop, hsame _ (hne link hlink e he)]
      exact Nat.lt_succ_of_le (hle _)
  refine not_transGen_of_rank rank' (fun a b hneeds => ?_) a
  cases hneeds with
  | root hroot hmem hleads =>
    obtain ⟨f, hf, rfl⟩ := hdeclared.exists_evaluation hmem hleads
    exact habove _ hroot f hf
  | queued he hmem hleads =>
    have he := hperm.symm.subset he
    obtain ⟨f, hf, rfl⟩ := (hdone.leadInto _ he).exists_evaluation hmem hleads
    rw [hsame f hf, hsame _ he]
    exact hlt _ he _ hmem _ hleads

end BuildComposition.Graph
