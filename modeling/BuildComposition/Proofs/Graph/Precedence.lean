import BuildComposition.Proofs.Graph.Acyclicity
import BuildComposition.Proofs.Lists

/-!
# The order of first visits

Descriptors are evaluated in the order in which one meets them when one reads the references in order,
each with everything below it before the next.  That descriptors are skipped which were visited before
does not change that order, because whatever these require was met before, too.

## Main definitions

* `Graph.MetFirst`: reading references in order, one descriptor is met before another one

## Main results

* `Graph.Completes.mem_iff_reaches`: a call evaluates what it reaches and nothing visited before
* `Graph.Series.metFirst_iff`: what is met first is evaluated first
-/

namespace BuildComposition.Graph

open Relation

variable {μ : Type} (g : Graph μ)

/-- Reading references in order, each with everything below it before the next, `a` is met before `b`:
the references lead to `a` along others, none of these leads to `b`, and nothing that is read before one
of them reaches `b`. -/
inductive MetFirst (es : List Evaluation) (a b : Path) : List String → Prop
  | here {reference rest} (hleads : g.Leads reference a) : MetFirst es a b (reference :: rest)
  | within {reference rest e} (he : e ∈ es) (hleads : g.Leads reference e.descriptor)
      (hne : e.descriptor ≠ b) (h : MetFirst es a b e.queue) : MetFirst es a b (reference :: rest)
  | later {reference rest} (hb : ¬g.Reaches es [reference] b) (h : MetFirst es a b rest) :
      MetFirst es a b (reference :: rest)

variable {g}

theorem reaches_append_iff {es : List Evaluation} {references more : List String} {p : Path} :
    g.Reaches es (references ++ more) p ↔ g.Reaches es references p ∨ g.Reaches es more p := by
  simp only [Reaches, List.mem_append, or_and_right, exists_or]

namespace MetFirst

variable {es : List Evaluation} {a b : Path} {references more : List String}

/-- What is met is reached. -/
theorem reaches (h : g.MetFirst es a b references) : g.Reaches es references a := by
  induction h with
  | @here reference _ hleads => exact ⟨reference, List.mem_cons_self, a, hleads, .refl⟩
  | @within reference _ e he hleads _ _ ih =>
    exact ⟨reference, List.mem_cons_self, e.descriptor, hleads, ih.through he⟩
  | later _ _ ih => exact ih.mono (List.Subset.refl _) (List.subset_cons_self _ _)

theorem append (h : g.MetFirst es a b references) (more : List String) :
    g.MetFirst es a b (references ++ more) := by
  induction h with
  | here hleads => exact .here hleads
  | within he hleads hne h => exact .within he hleads hne h
  | later hb _ ih => exact .later hb ih

/-- What is met first in references is met first among the first of them, or these do not reach the other
one. -/
theorem append_iff : g.MetFirst es a b (references ++ more) ↔
    g.MetFirst es a b references ∨ ¬g.Reaches es references b ∧ g.MetFirst es a b more := by
  induction references with
  | nil =>
    refine ⟨fun h => .inr ⟨by simp [Reaches], h⟩, ?_⟩
    rintro (h | ⟨-, h⟩)
    · cases h
    · exact h
  | cons reference rest ih =>
    have hsplit : g.Reaches es (reference :: rest) b ↔
        g.Reaches es [reference] b ∨ g.Reaches es rest b := by
      rw [← List.singleton_append, reaches_append_iff]
    rw [hsplit, not_or]
    constructor
    · rintro (hleads | ⟨he, hleads, hne, h⟩ | ⟨hb, h⟩)
      · exact .inl (.here hleads)
      · exact .inl (.within he hleads hne h)
      · rcases ih.mp h with h | ⟨hrest, h⟩
        · exact .inl (.later hb h)
        · exact .inr ⟨⟨hb, hrest⟩, h⟩
    · rintro (h | ⟨⟨hb, hrest⟩, h⟩)
      · exact h.append more
      · exact .later hb (ih.mpr (.inr ⟨hrest, h⟩))

/-- If what is met first comes first in two lists, it comes first in both together. -/
theorem append_iff_comesFirst {xs ys : List Path} (hreaches : g.Reaches es references b ↔ b ∈ xs)
    (hmet : g.MetFirst es a b references ↔ ComesFirst a b xs)
    (hmet' : a ∉ xs → b ∉ xs → (g.MetFirst es a b more ↔ ComesFirst a b ys)) :
    g.MetFirst es a b (references ++ more) ↔ ComesFirst a b (xs ++ ys) := by
  rw [append_iff, comesFirst_append_iff, hreaches, hmet]
  -- where neither is in the first list, both are yet to be met
  refine or_congr_right' fun hnot => and_congr_right fun hb => ?_
  exact hmet' (fun ha => hnot (comesFirst_of_mem ha hb)) hb

/-- A single reference leads to a descriptor or is read on in what this has queued. -/
theorem singleton_iff {e : Evaluation} {reference : String} (he : e ∈ es)
    (hes : (es.map (·.descriptor)).Nodup) (hleads : g.Leads reference e.descriptor) :
    g.MetFirst es a b [reference] ↔
      e.descriptor = a ∨ e.descriptor ≠ b ∧ g.MetFirst es a b e.queue := by
  constructor
  · rintro (ha | ⟨he', hleads', hne, h⟩ | ⟨-, h⟩)
    · exact .inl (hleads.unique ha)
    · obtain rfl := List.inj_on_of_nodup_map hes he he' (hleads.unique hleads')
      exact .inr ⟨hne, h⟩
    · cases h
  · rintro (rfl | ⟨hne, h⟩)
    · exact .here hleads
    · exact .within he hleads hne h

end MetFirst

/-! ## What a call evaluates -/

/-- What references reach that lead to finished descriptors is finished. -/
theorem Finished.mem_of_reaches {done es : List Evaluation} (h : g.Finished done)
    (hes : (es.map (·.descriptor)).Nodup) (hsub : done ⊆ es) {references : List String}
    (hreferences : g.LeadInto references (done.map (·.descriptor))) {p : Path}
    (hp : g.Reaches es references p) : p ∈ done.map (·.descriptor) := by
  refine hp.induct (fun reference hmem q hq => ?_) (fun q r hq hrequires => ?_)
  · obtain ⟨q', hq', hleads⟩ := hreferences reference hmem
    exact hleads.unique hq ▸ hq'
  · obtain ⟨f, hf, rfl⟩ := List.mem_map.mp hq
    obtain ⟨e, he, heq, reference, hmem, hr⟩ := hrequires
    obtain rfl := List.inj_on_of_nodup_map hes he (hsub hf) heq
    obtain ⟨r', hr', hleads⟩ := h.leadInto e hf reference hmem
    exact hleads.unique hr ▸ hr'

section

variable {below : List Link} {task : Task} {s t : GraphState μ} {es done all : List Evaluation}
  {units : List ResolvedUnit} {a b : Path}

/-- A call evaluates what its references reach, unless it was visited before. -/
theorem Completes.mem_iff_reaches (hg : g.Canonical) (h : g.Completes below task s es units t)
    (hdone : g.Finished done) (hs : VisitedAt s done below)
    (hall : (all.map (·.descriptor)).Nodup) (hsub : es ++ done ⊆ all) (hb : b ∉ s.visited) :
    g.Reaches all task.references b ↔ b ∈ es.map (·.descriptor) := by
  constructor
  · intro hreaches
    obtain ⟨done', hdone', hperm, hreferences⟩ := h.exists_finished hg hdone hs
    have hmem := hdone'.mem_of_reaches hall (List.Subset.trans hperm.subset hsub) hreferences hreaches
    rw [(hperm.map _).mem_iff, List.map_append, List.mem_append] at hmem
    refine hmem.resolve_right fun hbefore => hb ?_
    exact (hs b).mpr (.inl (List.mem_map.mp hbefore))
  · intro hmem
    obtain ⟨e, he, rfl⟩ := List.mem_map.mp hmem
    exact (h.follows.reaches e he).mono ((List.append_subset.mp hsub).1) (List.Subset.refl _)

/-- What is met first is evaluated first. -/
theorem Completes.metFirst_iff (hg : g.Canonical) (h : g.Completes below task s es units t)
    (hdone : g.Finished done) (hs : VisitedAt s done below)
    (hall : (all.map (·.descriptor)).Nodup) (hsub : es ++ done ⊆ all) (ha : a ∉ s.visited)
    (hb : b ∉ s.visited) :
    g.MetFirst all a b task.references ↔ ComesFirst a b (es.map (·.descriptor)) := by
  induction h generalizing done with
  | skipped hadmits hv =>
    -- all that is below the descriptor was visited before
    refine iff_of_false (fun h => ?_) (not_comesFirst_nil a b)
    have hmem := ((Completes.skipped hadmits hv).mem_iff_reaches hg hdone hs hall hsub ha).mp h.reaches
    cases hmem
  | @evaluated below kind _ link s requests frame t es _ _ hadmits hv hr h ih =>
    have hown : link.evaluation below.length kind requests ∈ all := hsub List.mem_cons_self
    rw [Task.references, MetFirst.singleton_iff hown hall hadmits.leads, List.map_cons,
      comesFirst_cons_iff]
    refine or_congr_right' fun hna => and_congr_right fun hnb => ?_
    have hvisited : ∀ p, link.descriptor ≠ p → p ∉ s.visited →
        p ∉ (t.descend link.reference frame.required).visited := by
      intro p hne hp
      rw [GraphState.visited_descend, hr.visited_eq, List.mem_cons, not_or]
      exact ⟨hne.symm, hp⟩
    rw [← hr.required_eq]
    exact ih hdone (hs.descend hr _ _) (fun e he => hsub (List.mem_cons_of_mem _ he))
      (hvisited a hna ha) (hvisited b hnb hb)
  | nil => exact iff_of_false (by rintro ⟨⟩) (not_comesFirst_nil a b)
  | @cons below _ reference rest s es _ t fs _ u h h' ih ih' =>
    obtain ⟨done', hdone', hperm, -⟩ := h.exists_finished hg hdone hs
    rw [List.append_assoc, List.append_subset] at hsub
    obtain ⟨hes, hrest⟩ := hsub
    obtain ⟨hfs, hbefore⟩ := List.append_subset.mp hrest
    have hfirst : es ++ done ⊆ all := List.append_subset.mpr ⟨hes, hbefore⟩
    have hnext : fs ++ done' ⊆ all :=
      List.append_subset.mpr ⟨hfs, fun e he => hfirst (hperm.subset he)⟩
    have hunvisited : ∀ p, p ∉ s.visited → p ∉ es.map (·.descriptor) → p ∉ t.visited := by
      intro p hp hes
      rw [h.follows.mem_visited_iff, not_or, ← List.mem_map]
      exact ⟨hp, hes⟩
    show g.MetFirst all a b ([reference] ++ rest) ↔ _
    rw [List.map_append]
    refine MetFirst.append_iff_comesFirst (h.mem_iff_reaches hg hdone hs hall hfirst hb)
      (ih hdone hs hfirst ha hb) fun ha' hb' => ?_
    exact ih' hdone' (hs.completes h hperm) hnext (hunvisited a ha ha') (hunvisited b hb hb')

end

/-! ## Calls one after the other -/

namespace Series

variable {references : List String} {es all : List Evaluation} {units : List ResolvedUnit}
  {visited : List Path} {a b : Path}

theorem mem_iff_reaches (hg : g.Canonical) (h : g.Series references es units visited)
    (hall : (all.map (·.descriptor)).Nodup) (hsub : es ⊆ all) :
    g.Reaches all references b ↔ b ∈ es.map (·.descriptor) := by
  constructor
  · intro hreaches
    obtain ⟨done, hdone, hperm, hreferences⟩ := h.exists_finished hg
    rw [← (hperm.map _).mem_iff]
    exact hdone.mem_of_reaches hall (List.Subset.trans hperm.subset hsub) hreferences hreaches
  · intro hmem
    obtain ⟨e, he, rfl⟩ := List.mem_map.mp hmem
    exact (h.reaches e he).mono hsub (List.Subset.refl _)

/-- What calls meet first they evaluate first. -/
theorem metFirst_iff (hg : g.Canonical) (h : g.Series references es units visited)
    (hall : (all.map (·.descriptor)).Nodup) (hsub : es ⊆ all) :
    g.MetFirst all a b references ↔ ComesFirst a b (es.map (·.descriptor)) := by
  induction h with
  | nil => exact iff_of_false (by rintro ⟨⟩) (not_comesFirst_nil a b)
  | @call references es _ _ s c fs _ _ h hs h' ih =>
    obtain ⟨hes, hfs⟩ := List.append_subset.mp hsub
    obtain ⟨done, hdone, hperm, -⟩ := h.exists_finished hg
    have hdone' : fs ++ done ⊆ all := List.append_subset.mpr ⟨hfs, List.Subset.trans hperm.subset hes⟩
    have hunvisited : ∀ p, p ∉ es.map (·.descriptor) → p ∉ s.visited := by
      intro p hp
      rwa [hs, h.mem_visited_iff, ← List.mem_map]
    rw [List.map_append]
    refine MetFirst.append_iff_comesFirst (h.mem_iff_reaches hg hall hes) (ih hes) fun ha hb => ?_
    exact h'.metFirst_iff hg hdone (h.visitedAt hperm hs) hall hdone' (hunvisited a ha)
      (hunvisited b hb)

end Series

end BuildComposition.Graph
