import BuildComposition.Proofs.Graph.Follows

/-!
# The evaluation stack

A place in the graph is an argument of `Graph.visit`.  Here it is a stack that all references share:
a descriptor is pushed before its queue is followed and popped afterwards, also if a reference of
the queue fails, and depths, chains and cycles are read off the stack.  Both ways do the same.  What
happens to the stack and to references on the way is recorded, so that what holds at every point of
a call can be said of the record.

## Main definitions

* `Moment`: something that happens, with the stack at that time
* `Walk`: the state of a graph with its stack and the record of what has happened
* `Graph.walkTo`, `Graph.walk`: following references on the stack
* `Recounts`: a record tells which descriptors were visited, and of each skip why

## Main results

* `Graph.Follows.retraces`: following a task on the stack does what following it at a place does
-/

namespace BuildComposition

/-- Something that happens on the way. -/
inductive Occurrence where
  /-- A reference is looked at. -/
  | reached (reference : String)
  | skipped (descriptor : Path)
  /-- The evaluation of a descriptor has returned. -/
  | returned (descriptor : Path)
  | failed (descriptor : Path)
  | pushed
  | popped
  deriving DecidableEq

/-- Something that happens, with the stack at that time. -/
structure Moment where
  occurrence : Occurrence
  stack : List Link
  deriving DecidableEq

/-- No two descriptors on the stack are the same. -/
def Apart (stack : List Link) : Prop :=
  stack.Pairwise fun a b => a.descriptor.agrees b.descriptor = false

/-- The state of a graph with its stack and the record of what has happened. -/
structure Walk (μ : Type) where
  state : GraphState μ
  stack : List Link
  moments : List Moment

/-- A step with a stack. -/
abbrev Walking (μ : Type) := EStateM GraphError (Walk μ)

variable {μ : Type}

namespace Walk

/-- Records what happens. -/
def mark (w : Walk μ) (o : Occurrence) : Walk μ := { w with moments := w.moments ++ [⟨o, w.stack⟩] }

/-- Puts a descriptor on the stack. -/
def push (w : Walk μ) (link : Link) : Walk μ :=
  ({ w with stack := w.stack ++ [link] } : Walk μ).mark .pushed

/-- Takes the topmost descriptor off the stack. -/
def pop (w : Walk μ) : Walk μ := ({ w with stack := w.stack.dropLast } : Walk μ).mark .popped

end Walk

namespace Graph

variable (g : Graph μ)

/-- The number of descriptors on the stack where references start. -/
def base : Nat := g.root.toList.length

/-- The unit of a descriptor, whose parent is on top of the stack. -/
def unitOn (kind : DescriptorKind) (stack : List Link) (link : Link) (frame : Frame) :
    Option ResolvedUnit :=
  match kind with
  | .override => none
  | .project =>
    let depth := stack.length - g.base
    some {
      reference := link.reference
      descriptor := link.descriptor
      parent := if 0 < depth then stack.getLast?.map (·.reference) else none
      depth
      target := frame.target
      settings := frame.settings }

/-- Evaluates a descriptor, and follows what it has queued while it is on the stack. -/
def walkInto (follow : List String → Walking μ (List ResolvedUnit)) (kind : DescriptorKind)
    (position : Nat) (link : Link) : Walking μ (List ResolvedUnit) := do
  let stack := (← get).stack
  let (result, s) := g.enter kind (stack.length - g.base) link (← get).state
  modify ({ · with state := s })
  match result with
  | .error e =>
    modify (·.mark (.failed link.descriptor))
    throw (.descriptor link.reference position (stack.map (·.reference)) e)
  | .ok frame =>
    modify (·.mark (.returned link.descriptor))
    let own := (g.unitOn kind stack link frame).toList
    if frame.required.isEmpty then return own
    modify fun w => { w with state := w.state.descend link.reference frame.required }
    modify (·.push link)
    -- the descriptor leaves the stack also if a reference of its queue fails
    let units ← try follow frame.required finally modify (·.pop)
    return own ++ units

/-- Follows a reference on the stack, where `remaining` more references may nest. -/
def walkTo (remaining : Nat) (kind : DescriptorKind) (position : Nat) (reference : String) :
    Walking μ (List ResolvedUnit) := do
  modify (·.mark (.reached reference))
  let stack := (← get).stack
  let chain := stack.map (·.reference)
  let resolved := g.resolvePath reference
  match g.evaluator.find? resolved with
  | none => throw (.notFound reference resolved position chain)
  | some descriptor =>
    if stack.any (·.descriptor.agrees descriptor) then throw (.cycle (chain ++ [reference]))
    if g.maxDepth ≤ stack.length - g.base then
      throw (.tooDeep g.maxDepth (chain ++ [reference]))
    if (← get).state.visited.contains descriptor then
      modify (·.mark (.skipped descriptor))
      modify fun w => { w with state := w.state.note (.skipped reference) (change?_skipped reference) }
      return []
    match remaining with
    -- the depth was checked already
    | 0 => throw (.tooDeep g.maxDepth (chain ++ [reference]))
    | remaining + 1 =>
      g.walkInto (inOrder (walkTo remaining .project) 1) kind position ⟨reference, descriptor⟩

/-- Follows a task on the stack. -/
def walkThrough (remaining : Nat) : Task → Walking μ (List ResolvedUnit)
  | .one kind position reference => g.walkTo remaining kind position reference
  | .all position references => inOrder (g.walkTo remaining .project) position references

/-- What a call does on the stack. -/
def walk (c : Call) : Walking μ (List ResolvedUnit) := g.walkThrough g.maxDepth c.task

end Graph

/-! ## What a record tells -/

/-- The descriptor that was evaluated. -/
def Occurrence.evaluated? : Occurrence → Option Path
  | returned descriptor | failed descriptor => some descriptor
  | _ => none

/-- The evaluation of a descriptor has failed. -/
def Occurrence.isFailure : Occurrence → Bool
  | failed _ => true
  | _ => false

/-- What happens fits what was visited: descriptors that were visited are skipped, and others are
evaluated. -/
def Occurrence.Fits (visited : List Path) : Occurrence → Prop
  | skipped descriptor => descriptor ∈ visited
  | returned descriptor | failed descriptor => descriptor ∉ visited
  | _ => True

/-- A record leads from the descriptors that were visited before it to those visited after it. -/
inductive Recounts : List Path → List Moment → List Path → Prop
  | nil (visited : List Path) : Recounts visited [] visited
  | cons {visited m moments after} (hfits : m.occurrence.Fits visited)
      (h : Recounts (m.occurrence.evaluated?.toList ++ visited) moments after) :
      Recounts visited (m :: moments) after

namespace Recounts

variable {visited between after : List Path} {moments more : List Moment}

theorem append (h : Recounts visited moments between) (h' : Recounts between more after) :
    Recounts visited (moments ++ more) after := by
  induction h with
  | nil => exact h'
  | cons hfits _ ih => exact .cons hfits (ih h')

theorem single {m : Moment} (h : m.occurrence.Fits visited) :
    Recounts visited [m] (m.occurrence.evaluated?.toList ++ visited) := .cons h (.nil _)

end Recounts

namespace Graph

variable {g : Graph μ} {below : List Link}

theorem links_append (more : List Link) : g.links (below ++ more) = g.links below ++ more :=
  (List.append_assoc ..).symm

theorem length_links : (g.links below).length = g.base + below.length := List.length_append

/-- The unit on the stack is that at the place. -/
theorem unitOn_links (kind : DescriptorKind) (link : Link) (frame : Frame) :
    g.unitOn kind (g.links below) link frame = unitOf kind below link frame := by
  cases kind with
  | override => rfl
  | project =>
    have hdepth : (g.links below).length - g.base = below.length := by
      rw [length_links, Nat.add_sub_cancel_left]
    cases hbelow : below.getLast? with
    | none =>
      obtain rfl := List.getLast?_eq_none_iff.mp hbelow
      simp only [unitOn, unitOf, hdepth]
      rfl
    | some last =>
      have hpos : 0 < below.length := by
        rw [List.length_pos_iff]
        rintro rfl
        cases hbelow
      have hlast : (g.links below).getLast? = below.getLast? := by
        rw [links, List.getLast?_append, hbelow]
        rfl
      simp only [unitOn, unitOf, hdepth, if_pos hpos, hlast]

theorem apart_links_append {link : Link} (h : Apart (g.links below)) (ha : g.Admits below link) :
    Apart (g.links (below ++ [link])) := by
  rw [Apart, links_append, List.pairwise_append]
  refine ⟨h, List.pairwise_singleton _ _, ?_⟩
  intro l hl m hm
  rw [List.mem_singleton.mp hm]
  exact ha.apart l hl

/-! ## On the stack as at a place -/

variable (g) in
/-- The stack is at a place or above it, and no two descriptors on it are the same. -/
def Above (below : List Link) (stack : List Link) : Prop :=
  (∃ deeper, stack = g.links (below ++ deeper)) ∧ Apart stack

theorem Above.here (h : Apart (g.links below)) : g.Above below (g.links below) :=
  ⟨⟨[], by rw [List.append_nil]⟩, h⟩

theorem Above.of_append {more stack : List Link} (h : g.Above (below ++ more) stack) :
    g.Above below stack := by
  obtain ⟨⟨deeper, rfl⟩, hapart⟩ := h
  exact ⟨⟨more ++ deeper, by rw [List.append_assoc]⟩, hapart⟩

variable (g) in
/-- What is recorded while a task is followed on the stack of a place, from the descriptors visited
before it to those visited after it. -/
structure Chronicle (below : List Link) (visited : List Path)
    (outcome : Except GraphError (List ResolvedUnit)) (after : List Path) (moments : List Moment) :
    Prop where
  recounts : Recounts visited moments after
  above : ∀ m ∈ moments, g.Above below m.stack
  /-- A descriptor that fails is what the task fails with. -/
  fails : ∀ m ∈ moments, m.occurrence.isFailure = true →
    ∃ (link : Link) (position : Nat) (chain : List String) (cause : ScriptError),
      g.Leads link.reference link.descriptor ∧
      m.occurrence = .failed link.descriptor ∧
      outcome = .error (.descriptor link.reference position chain cause)
  /-- Once a descriptor has failed no reference is looked at. -/
  halts : moments.Pairwise fun a b => a.occurrence.isFailure = true → b.occurrence = .popped

variable (g) in
/-- Following a task on the stack of a place leads to an outcome and a state.  The stack is then
what it was before, and what has happened is recorded. -/
def Retraces (below : List Link) (task : Task) (s : GraphState μ)
    (outcome : Except GraphError (List ResolvedUnit)) (t : GraphState μ) : Prop :=
  ∀ remaining moments, below.length + remaining = g.maxDepth →
    ∃ more, (g.walkThrough remaining task).run ⟨s, g.links below, moments⟩ =
        ending outcome ⟨t, g.links below, moments ++ more⟩ ∧
      g.Chronicle below s.visited outcome t.visited more

namespace Chronicle

variable {visited between after : List Path} {moments more : List Moment}
  {outcome : Except GraphError (List ResolvedUnit)}

/-- Nothing fails where a task succeeds. -/
theorem isFailure_eq_false {units : List ResolvedUnit}
    (h : g.Chronicle below visited (.ok units) after moments) {m : Moment} (hm : m ∈ moments) :
    m.occurrence.isFailure = false := by
  rw [Bool.eq_false_iff]
  intro hfailure
  obtain ⟨_, _, _, _, -, -, herror⟩ := h.fails m hm hfailure
  cases herror

theorem append {units : List ResolvedUnit}
    (h : g.Chronicle below visited (.ok units) between moments)
    (h' : g.Chronicle below between outcome after more) :
    g.Chronicle below visited (outcome.map (units ++ ·)) after (moments ++ more) where
  recounts := h.recounts.append h'.recounts
  above m hm := (List.mem_append.mp hm).elim (h.above m) (h'.above m)
  fails m hm hfailure := by
    rcases List.mem_append.mp hm with hm | hm
    · rw [h.isFailure_eq_false hm] at hfailure
      cases hfailure
    · obtain ⟨link, position, chain, cause, hleads, ho, rfl⟩ := h'.fails m hm hfailure
      exact ⟨link, position, chain, cause, hleads, ho, rfl⟩
  halts := by
    rw [List.pairwise_append]
    refine ⟨h.halts, h'.halts, ?_⟩
    intro m hm _ _ hfailure
    rw [h.isFailure_eq_false hm] at hfailure
    cases hfailure

/-- A reference is looked at before anything else happens. -/
theorem reached (reference : String) (hapart : Apart (g.links below))
    (h : g.Chronicle below visited outcome after moments) :
    g.Chronicle below visited outcome after
      (⟨.reached reference, g.links below⟩ :: moments) where
  recounts := .cons trivial h.recounts
  above := List.forall_mem_cons.mpr ⟨.here hapart, h.above⟩
  fails := List.forall_mem_cons.mpr ⟨nofun, h.fails⟩
  halts := List.pairwise_cons.mpr ⟨nofun, h.halts⟩

theorem skipped {descriptor : Path} (hapart : Apart (g.links below)) (hv : descriptor ∈ visited) :
    g.Chronicle below visited (.ok []) visited [⟨.skipped descriptor, g.links below⟩] where
  recounts := .single hv
  above := by simpa using Above.here hapart
  fails := List.forall_mem_singleton.mpr nofun
  halts := List.pairwise_singleton _ _

theorem failed {link : Link} {position : Nat} {chain : List String} {cause : ScriptError}
    (hapart : Apart (g.links below)) (hv : link.descriptor ∉ visited)
    (hleads : g.Leads link.reference link.descriptor) :
    g.Chronicle below visited (.error (.descriptor link.reference position chain cause))
      (link.descriptor :: visited) [⟨.failed link.descriptor, g.links below⟩] where
  recounts := .single hv
  above := by simpa using Above.here hapart
  fails := List.forall_mem_singleton.mpr fun _ =>
    ⟨link, position, chain, cause, hleads, rfl, rfl⟩
  halts := List.pairwise_singleton _ _

theorem returned {descriptor : Path} (units : List ResolvedUnit) (hapart : Apart (g.links below))
    (hv : descriptor ∉ visited) :
    g.Chronicle below visited (.ok units) (descriptor :: visited)
      [⟨.returned descriptor, g.links below⟩] where
  recounts := .single hv
  above := by simpa using Above.here hapart
  fails := List.forall_mem_singleton.mpr nofun
  halts := List.pairwise_singleton _ _

/-- While a queue is followed its descriptor is on the stack. -/
theorem pushed {link : Link} (hapart : Apart (g.links below)) (ha : g.Admits below link)
    (h : g.Chronicle (below ++ [link]) visited outcome after moments) :
    g.Chronicle below visited outcome after
      (⟨.pushed, g.links (below ++ [link])⟩ :: (moments ++ [⟨.popped, g.links below⟩])) where
  recounts := .cons trivial (h.recounts.append (.single trivial))
  above := by
    have hhere : g.Above (below ++ [link]) (g.links (below ++ [link])) :=
      .here (apart_links_append hapart ha)
    intro m hm
    simp only [List.mem_cons, List.mem_append, List.not_mem_nil, or_false] at hm
    rcases hm with rfl | hm | rfl
    · exact hhere.of_append
    · exact (h.above m hm).of_append
    · exact .here hapart
  fails := by
    intro m hm hfailure
    simp only [List.mem_cons, List.mem_append, List.not_mem_nil, or_false] at hm
    rcases hm with rfl | hm | rfl
    · cases hfailure
    · exact h.fails m hm hfailure
    · cases hfailure
  halts := by
    rw [List.pairwise_cons, List.pairwise_append]
    refine ⟨nofun, h.halts, List.pairwise_singleton _ _, ?_⟩
    intro _ _ m hm _
    rw [List.mem_singleton.mp hm]

end Chronicle

section Steps

/-- What is done at last is done also if an action fails. -/
theorem run_tryFinally_modify {α : Type} (act : Walking μ α) (f : Walk μ → Walk μ) (w : Walk μ) :
    (tryFinally act (modify f) : Walking μ α).run w =
      match act.run w with
      | .ok a v => .ok a (f v)
      | .error e v => .error e (f v) := by
  simp only [EStateM.run, tryFinally, tryFinally', Functor.map, EStateM.map]
  cases act w <;> rfl

variable {remaining position : Nat} {kind : DescriptorKind} {s : GraphState μ}
  {moments : List Moment}

/-- The depth of a place is read off its stack. -/
theorem length_links_sub_base : (g.links below).length - g.base = below.length := by
  rw [length_links, Nat.add_sub_cancel_left]

/-- A reference that is refused at a place is refused on its stack. -/
theorem walkTo_refused {reference : String} {e : GraphError}
    (h : g.Refuses below position reference e) :
    (g.walkTo remaining kind position reference).run ⟨s, g.links below, moments⟩ =
      .error e ⟨s, g.links below, moments ++ [⟨.reached reference, g.links below⟩]⟩ := by
  rw [walkTo.eq_def]
  cases h with
  | notFound hfind =>
    simp only [hfind]
    rfl
  | @cycle descriptor link hleads hlink hagrees =>
    have hcycle : (g.links below).any (·.descriptor.agrees descriptor) = true :=
      List.any_eq_true.mpr ⟨link, hlink, hagrees⟩
    simp only [show g.evaluator.find? (g.resolvePath reference) = some descriptor from hleads]
    simp only [EStateM.run_bind, EStateM.run_modify, EStateM.run_get, Walk.mark, hcycle, if_true]
    rfl
  | @tooDeep descriptor hleads hapart hdepth =>
    have hcycle : (g.links below).any (·.descriptor.agrees descriptor) = false := by
      simpa using hapart
    simp only [show g.evaluator.find? (g.resolvePath reference) = some descriptor from hleads]
    simp only [EStateM.run_bind, EStateM.run_modify, EStateM.run_get, Walk.mark, hcycle,
      length_links_sub_base, hdepth, if_true]
    rfl

/-- A reference that is admitted at a place passes the checks on its stack. -/
theorem walkTo_admitted {link : Link} (ha : g.Admits below link) :
    (g.walkTo (remaining + 1) kind position link.reference).run ⟨s, g.links below, moments⟩ =
      (if link.descriptor ∈ s.visited then do
        modify (·.mark (.skipped link.descriptor))
        modify fun w => { w with state := w.state.note (.skipped link.reference) }
        return []
      else
        g.walkInto (inOrder (g.walkTo remaining .project) 1) kind position link).run
        ⟨s, g.links below, moments ++ [⟨.reached link.reference, g.links below⟩]⟩ := by
  have hcycle : (g.links below).any (·.descriptor.agrees link.descriptor) = false := by
    simpa using ha.apart
  have hdepth : ¬g.maxDepth ≤ below.length := Nat.not_le.mpr ha.depth_lt
  rw [walkTo.eq_def]
  simp only [show g.evaluator.find? (g.resolvePath link.reference) = some link.descriptor from
    ha.leads]
  simp only [EStateM.run_bind, EStateM.run_modify, EStateM.run_get, Walk.mark, hcycle,
    length_links_sub_base, hdepth, if_false, Bool.false_eq_true, List.contains_iff_mem]

/-- A descriptor that fails leaves the stack as it was. -/
theorem walkInto_failed {follow : List String → Walking μ (List ResolvedUnit)} {link : Link}
    {requests : List Request} {e : ScriptError} {t : GraphState μ}
    (hr : g.Enters kind below.length link s requests (.error e) t) :
    (g.walkInto follow kind position link).run ⟨s, g.links below, moments⟩ =
      .error (.descriptor link.reference position (g.chain below) e)
        ⟨t, g.links below, moments ++ [⟨.failed link.descriptor, g.links below⟩]⟩ := by
  simp only [walkInto, EStateM.run_bind, EStateM.run_modify, EStateM.run_get,
    length_links_sub_base, hr.enter_eq, Walk.mark]
  rfl

/-- The queue of a descriptor is followed while it is on the stack, and then it is not any more. -/
theorem walkInto_evaluated {follow : List String → Walking μ (List ResolvedUnit)} {link : Link}
    {requests : List Request} {frame : Frame} {t u : GraphState μ}
    {outcome : Except GraphError (List ResolvedUnit)} {more : List Moment}
    (hr : g.Enters kind below.length link s requests (.ok frame) t)
    (hq : frame.required ≠ [])
    (hfollow : (follow frame.required).run ⟨t.descend link.reference frame.required,
        g.links (below ++ [link]), moments ++ [⟨.returned link.descriptor, g.links below⟩] ++
          [⟨.pushed, g.links (below ++ [link])⟩]⟩ =
      ending outcome ⟨u, g.links (below ++ [link]), moments ++
        [⟨.returned link.descriptor, g.links below⟩] ++
          [⟨.pushed, g.links (below ++ [link])⟩] ++ more⟩) :
    (g.walkInto follow kind position link).run ⟨s, g.links below, moments⟩ =
      ending (outcome.map ((unitOf kind below link frame).toList ++ ·))
        ⟨u, g.links below, moments ++ [⟨.returned link.descriptor, g.links below⟩] ++
          [⟨.pushed, g.links (below ++ [link])⟩] ++ more ++ [⟨.popped, g.links below⟩]⟩ := by
  rw [links_append] at hfollow ⊢
  simp only [walkInto, EStateM.run_bind, EStateM.run_modify, EStateM.run_get,
    length_links_sub_base, hr.enter_eq, Walk.mark, unitOn_links, List.isEmpty_iff, hq, if_false,
    Walk.push, run_tryFinally_modify, hfollow]
  cases outcome <;> simp [ending, Except.map, Walk.pop, Walk.mark]

/-- A descriptor that has queued nothing is not put on the stack. -/
theorem walkInto_idle {follow : List String → Walking μ (List ResolvedUnit)} {link : Link}
    {requests : List Request} {frame : Frame} {t : GraphState μ}
    (hr : g.Enters kind below.length link s requests (.ok frame) t) (hq : frame.required = []) :
    (g.walkInto follow kind position link).run ⟨s, g.links below, moments⟩ =
      .ok (unitOf kind below link frame).toList
        ⟨t, g.links below, moments ++ [⟨.returned link.descriptor, g.links below⟩]⟩ := by
  simp only [walkInto, EStateM.run_bind, EStateM.run_modify, EStateM.run_get,
    length_links_sub_base, hr.enter_eq, Walk.mark, unitOn_links, hq, List.isEmpty_nil, if_true]
  rfl

end Steps

/-- Where a descriptor is admitted, more references may nest. -/
theorem Admits.exists_remaining {link : Link} (ha : g.Admits below link) {remaining : Nat}
    (h : below.length + remaining = g.maxDepth) : ∃ n, remaining = n + 1 := by
  have hlt := ha.depth_lt
  exact Nat.exists_eq_succ_of_ne_zero (by omega)

/-- Following a task on the stack does what following it at a place does. -/
theorem Follows.retraces {task : Task} {s t : GraphState μ} {es : List Evaluation}
    {outcome : Except GraphError (List ResolvedUnit)}
    (h : g.Follows below task s es outcome t) (hapart : Apart (g.links below)) :
    g.Retraces below task s outcome t := by
  induction h with
  | refused h =>
    intro remaining moments _
    exact ⟨_, walkTo_refused h, .single trivial, by simpa using Above.here hapart,
      List.forall_mem_singleton.mpr nofun, List.pairwise_singleton _ _⟩
  | @skipped below kind position link s ha hv =>
    intro remaining moments hremaining
    obtain ⟨remaining, rfl⟩ := ha.exists_remaining hremaining
    refine ⟨_, ?_, (Chronicle.skipped hapart hv).reached link.reference hapart⟩
    · rw [walkThrough, walkTo_admitted ha, if_pos hv]
      simp only [EStateM.run_bind, EStateM.run_modify, Walk.mark, List.append_assoc]
      rfl
  | @failed below kind position link s requests e t ha hv hr =>
    intro remaining moments hremaining
    obtain ⟨remaining, rfl⟩ := ha.exists_remaining hremaining
    rw [hr.visited_eq]
    refine ⟨_, ?_, (Chronicle.failed hapart hv ha.leads).reached link.reference hapart⟩
    rw [walkThrough, walkTo_admitted ha, if_neg hv, walkInto_failed hr, List.append_assoc]
    rfl
  | @evaluated below kind position link s requests frame t es outcome u ha hv hr h ih =>
    intro remaining moments hremaining
    obtain ⟨remaining, rfl⟩ := ha.exists_remaining hremaining
    have hvisited : (t.descend link.reference frame.required).visited =
        link.descriptor :: s.visited := by
      rw [GraphState.visited_descend, hr.visited_eq]
    have hreturned : ∀ units, g.Chronicle below s.visited (.ok units)
        (link.descriptor :: s.visited) [⟨.returned link.descriptor, g.links below⟩] :=
      fun _ => .returned _ hapart hv
    simp only [walkThrough, walkTo_admitted ha, if_neg hv]
    by_cases hq : frame.required = []
    · rw [hq] at h
      cases h
      rw [← hq, hvisited]
      refine ⟨_, ?_, (hreturned _).reached link.reference hapart⟩
      rw [walkInto_idle hr hq]
      simp [ending, Except.map, GraphState.descend, hq]
    · obtain ⟨more, hrun, hchronicle⟩ := ih (apart_links_append hapart ha) remaining
        (moments ++ [⟨.reached link.reference, g.links below⟩] ++
          [⟨.returned link.descriptor, g.links below⟩] ++ [⟨.pushed, g.links (below ++ [link])⟩])
        (by simp only [List.length_append, List.length_singleton]; omega)
      rw [hvisited] at hchronicle
      refine ⟨_, ?_, ((hreturned _).append (hchronicle.pushed hapart ha)).reached link.reference hapart⟩
      rw [walkInto_evaluated hr hq hrun]
      simp only [List.append_assoc, List.cons_append, List.nil_append]
  | nil =>
    intro remaining moments _
    exact ⟨[], by simp [walkThrough, inOrder, ending], .nil _, by simp, by simp, .nil⟩
  | @cons _ _ _ _ _ _ _ _ _ outcome _ _ _ ih ih' =>
    intro remaining moments hremaining
    obtain ⟨more, hrun, hchronicle⟩ := ih hapart remaining moments hremaining
    obtain ⟨rest, hrun', hchronicle'⟩ := ih' hapart remaining (moments ++ more) hremaining
    refine ⟨more ++ rest, ?_, hchronicle.append hchronicle'⟩
    simp only [walkThrough] at hrun hrun' ⊢
    simp only [inOrder, EStateM.run_bind, hrun, ending, hrun', List.append_assoc]
    cases outcome <;> rfl
  | stop _ ih =>
    intro remaining moments hremaining
    obtain ⟨more, hrun, hchronicle⟩ := ih hapart remaining moments hremaining
    refine ⟨more, ?_, hchronicle⟩
    simp only [walkThrough] at hrun ⊢
    simp only [inOrder, EStateM.run_bind, hrun]
    rfl

end Graph

end BuildComposition
