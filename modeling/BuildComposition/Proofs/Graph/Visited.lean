import BuildComposition.Proofs.Graph.Follows
import Mathlib.Data.List.Nodup

/-!
# Visited descriptors and the journal

A descriptor is visited exactly if it was evaluated, and it is evaluated at most once.  The journal
tells of the evaluations in the order in which they began.

## Main results

* `Graph.Follows.visited_eq`, `Graph.Follows.nodup_visited`: evaluations are the visits, without
  repetition
* `Graph.Follows.exists_events`: evaluations are what the journal tells of
* `Graph.Follows.leads`, `Graph.Follows.apart`: references lead to evaluated descriptors, which are
  apart from all links below them
-/

namespace BuildComposition.Graph

variable {μ : Type} {g : Graph μ}

theorem Leads.unique {reference : String} {p q : Path} (hp : g.Leads reference p)
    (hq : g.Leads reference q) : p = q := Option.some.inj (hp.symm.trans hq)

theorem mem_links_append {below more : List Link} {l : Link} (h : l ∈ g.links below) :
    l ∈ g.links (below ++ more) := by
  rw [links] at h ⊢
  rw [← List.append_assoc]
  exact List.mem_append_left more h

namespace Follows

variable {below : List Link} {task : Task} {s t : GraphState μ} {es : List Evaluation}
  {outcome : Except GraphError (List ResolvedUnit)}

/-- The descriptors visited on the way are those evaluated, the last one first. -/
theorem visited_eq (h : g.Follows below task s es outcome t) :
    t.visited = (es.map (·.descriptor)).reverse ++ s.visited := by
  induction h with
  | refused | skipped | nil => rfl
  | failed _ _ hr => exact hr.visited_eq
  | evaluated _ _ hr _ ih =>
    rw [ih, GraphState.visited_descend, hr.visited_eq]
    simp [Link.evaluation]
  | cons _ _ ih ih' => rw [ih', ih, List.map_append, List.reverse_append, List.append_assoc]
  | stop _ ih => exact ih

theorem mem_visited_iff (h : g.Follows below task s es outcome t) {p : Path} :
    p ∈ t.visited ↔ p ∈ s.visited ∨ ∃ e ∈ es, e.descriptor = p := by
  rw [h.visited_eq]
  simp [or_comm]

/-- No descriptor is evaluated twice. -/
theorem nodup_visited (h : g.Follows below task s es outcome t) (hs : s.visited.Nodup) :
    t.visited.Nodup := by
  induction h with
  | refused | skipped | nil => exact hs
  | failed _ hv hr =>
    rw [hr.visited_eq]
    exact List.nodup_cons.mpr ⟨hv, hs⟩
  | evaluated _ hv hr _ ih =>
    apply ih
    rw [GraphState.visited_descend, hr.visited_eq]
    exact List.nodup_cons.mpr ⟨hv, hs⟩
  | cons _ _ ih ih' => exact ih' (ih hs)
  | stop _ ih => exact ih hs

/-- The journal grows by events that tell of the evaluations. -/
theorem exists_events (h : g.Follows below task s es outcome t) :
    ∃ events, t.session.journal = s.session.journal ++ events ∧ Records events es := by
  induction h with
  | refused | nil => exact ⟨[], by simp, .quiet (by simp)⟩
  | skipped => exact ⟨_, rfl, .quiet (by simp [Event.isStart])⟩
  | failed _ _ hr =>
    obtain ⟨chunk, hj, rfl, hp⟩ := hr.journal_eq
    exact ⟨_, hj, records_evaluation _ _ _ hp⟩
  | @evaluated _ _ _ link _ _ frame _ _ _ _ _ _ hr _ ih =>
    obtain ⟨chunk, hj, rfl, hp⟩ := hr.journal_eq
    obtain ⟨noted, hn, hd⟩ := GraphState.journal_descend _ link.reference frame.required
    obtain ⟨events, he, hrec⟩ := ih
    -- that a queue is followed tells of no evaluation
    have hquiet : Records noted [] := .quiet fun e he => by
      obtain ⟨_, rfl⟩ := hd e he
      rfl
    refine ⟨_, ?_, (records_evaluation _ _ _ hp).append (hquiet.append hrec)⟩
    rw [he, hn, hj]
    simp only [List.append_assoc]
  | cons _ _ ih ih' =>
    obtain ⟨events, he, hrec⟩ := ih
    obtain ⟨more, hm, hrec'⟩ := ih'
    exact ⟨events ++ more, by rw [hm, he, List.append_assoc], hrec.append hrec'⟩
  | stop _ ih => exact ih

/-- A journal that tells of evaluations tells of those that follow, too. -/
theorem records (h : g.Follows below task s es outcome t) {fs : List Evaluation}
    (hs : Records s.session.journal fs) : Records t.session.journal (fs ++ es) := by
  obtain ⟨events, hj, hrec⟩ := h.exists_events
  rw [hj]
  exact hs.append hrec

/-- Every evaluation is of the descriptor that its reference leads to. -/
theorem leads (h : g.Follows below task s es outcome t) :
    ∀ e ∈ es, g.Leads e.reference e.descriptor := by
  induction h with
  | refused | skipped | nil => simp
  | failed ha => simpa [Link.evaluation] using ha.leads
  | evaluated ha _ _ _ ih =>
    rintro e (_ | ⟨_, he⟩)
    · exact ha.leads
    · exact ih e he
  | cons _ _ ih ih' =>
    intro e he
    exact (List.mem_append.mp he).elim (ih e) (ih' e)
  | stop _ ih => exact ih

/-- What is evaluated at a place is none of the descriptors that lead there. -/
theorem apart (h : g.Follows below task s es outcome t) :
    ∀ e ∈ es, ∀ l ∈ g.links below, l.descriptor.agrees e.descriptor = false := by
  induction h with
  | refused | skipped | nil => simp
  | failed ha => simpa [Link.evaluation] using ha.apart
  | evaluated ha _ _ _ ih =>
    rintro e (_ | ⟨_, he⟩) l hl
    · exact ha.apart l hl
    · exact ih e he l (mem_links_append hl)
  | cons _ _ ih ih' =>
    intro e he
    exact (List.mem_append.mp he).elim (ih e) (ih' e)
  | stop _ ih => exact ih

end Follows

end BuildComposition.Graph
