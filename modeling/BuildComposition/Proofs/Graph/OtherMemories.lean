import BuildComposition.Graph
import BuildComposition.Proofs.Simulation

/-!
# Graphs on other memories

What a graph does with memory is what its descriptors do with it.  If descriptors do the same on related
memories of two kinds, then so do calls on the graphs.

## Main definitions

* `Graph.on`: the graph with the same descriptors, which run on another memory
* `GraphState.Tracks`, `Runner.Tracks`, `Graph.Tracks`: the same on related memories

## Main results

* `Graph.Tracks.evaluateAll`, `Graph.Tracks.evaluateOverride`: calls do the same
-/

namespace BuildComposition

variable {μ ν : Type}

/-- The states differ in their memories at most, which are related. -/
structure GraphState.Tracks (R : μ → ν → Prop) (s : GraphState μ) (t : GraphState ν) : Prop where
  memory : R s.memory t.memory
  session_eq : s.session = t.session
  visited_eq : s.visited = t.visited

/-- How descriptors run on some memory. -/
abbrev Runner (μ : Type) :=
  Path → μ → (s : Session) → Except ScriptError Unit × μ × Performed s

/-- Descriptors do the same on related memories. -/
structure Runner.Tracks (R : μ → ν → Prop) (x : Runner μ) (y : Runner ν) : Prop where
  result_eq : ∀ path m n session, R m n → (x path m session).1 = (y path n session).1
  memory : ∀ path m n session, R m n → R (x path m session).2.1 (y path n session).2.1
  performed_eq : ∀ path m n session, R m n → (x path m session).2.2 = (y path n session).2.2

namespace Graph

/-- The graph with the same descriptors, which run on another memory. -/
def on (g : Graph μ) (run : Runner ν) : Graph ν :=
  { g with evaluator := { g.evaluator with run } }

section

variable (g : Graph μ) (run : Runner ν)

@[simp] theorem find?_on : (g.on run).evaluator.find? = g.evaluator.find? := rfl

@[simp] theorem resolvePath_on : (g.on run).resolvePath = g.resolvePath := rfl

@[simp] theorem links_on : (g.on run).links = g.links := rfl

@[simp] theorem chain_on : (g.on run).chain = g.chain := rfl

@[simp] theorem maxDepth_on : (g.on run).maxDepth = g.maxDepth := rfl

end

variable {R : μ → ν → Prop} {g : Graph μ} {run : Runner ν}

/-- Both do the same from states that differ in their memories at most. -/
abbrev Tracks {ε α : Type} (R : μ → ν → Prop) (x : EStateM ε (GraphState μ) α)
    (y : EStateM ε (GraphState ν) α) : Prop :=
  Simulates (GraphState.Tracks R) Eq Eq x y

theorem Tracks.pure {ε α : Type} (a : α) :
    Tracks R (Pure.pure a : EStateM ε (GraphState μ) α) (Pure.pure a) := Simulates.pure rfl

theorem Tracks.throw {ε α : Type} (e : ε) :
    Tracks R (throw e : EStateM ε (GraphState μ) α) (throw e) := fun _ _ h => .error rfl h

theorem Tracks.bind {ε α β : Type} {x : EStateM ε (GraphState μ) α} {y : EStateM ε (GraphState ν) α}
    {f : α → EStateM ε (GraphState μ) β} {f' : α → EStateM ε (GraphState ν) β} (hxy : Tracks R x y)
    (hf : ∀ a, Tracks R (f a) (f' a)) : Tracks R (x >>= f) (y >>= f') :=
  Simulates.bind hxy fun a _ h => h ▸ hf a

theorem Tracks.modified {ε : Type} {f : GraphState μ → GraphState μ} {f' : GraphState ν → GraphState ν}
    (h : ∀ s t, s.Tracks R t → (f s).Tracks R (f' t)) :
    Tracks R (modify f : EStateM ε (GraphState μ) PUnit) (modify f') := fun s t hst => .ok rfl (h s t hst)

theorem Tracks.get {ε α : Type} {f : GraphState μ → EStateM ε (GraphState μ) α}
    {f' : GraphState ν → EStateM ε (GraphState ν) α}
    (h : ∀ s t, s.Tracks R t → Tracks R (f s) (f' t)) :
    Tracks R (MonadState.get >>= f) (MonadState.get >>= f') := fun s t hst => h s t hst s t hst

theorem Tracks.set {ε : Type} {s : GraphState μ} {t : GraphState ν} (h : s.Tracks R t) :
    Tracks R (MonadStateOf.set s : EStateM ε (GraphState μ) PUnit) (MonadStateOf.set t) :=
  fun _ _ _ => .ok rfl h

theorem Tracks.ite {ε α : Type} {p : Prop} [Decidable p] {x x' : EStateM ε (GraphState μ) α}
    {y y' : EStateM ε (GraphState ν) α} (h : Tracks R x y) (h' : Tracks R x' y') :
    Tracks R (if p then x else x') (if p then y else y') := by
  split
  · exact h
  · exact h'

theorem Tracks.note (e : Event) (he : e.change? = none) :
    Tracks R (Graph.note e he : Visit μ Unit) (Graph.note e he) :=
  Tracks.modified fun _ _ h => ⟨h.memory, congrArg (·.note e he) h.session_eq, h.visited_eq⟩

theorem Tracks.inOrder {ε : Type} {visit : Nat → String → EStateM ε (GraphState μ) (List ResolvedUnit)}
    {visit' : Nat → String → EStateM ε (GraphState ν) (List ResolvedUnit)}
    (h : ∀ position reference, Tracks R (visit position reference) (visit' position reference))
    (position : Nat) (references : List String) :
    Tracks R (inOrder visit position references) (inOrder visit' position references) := by
  induction references generalizing position with
  | nil => exact .pure _
  | cons reference rest ih => exact .bind (h position reference) fun _ => .bind (ih _) fun _ => .pure _

/-- A descriptor does the same on related memories. -/
theorem Tracks.runDescriptor (h : Runner.Tracks R g.evaluator.run run) (descriptor : Path)
    (kind : DescriptorKind) {s : GraphState μ} {t : GraphState ν} (hst : s.Tracks R t) :
    (g.runDescriptor descriptor kind s).1 = ((g.on run).runDescriptor descriptor kind t).1 ∧
      (g.runDescriptor descriptor kind s).2.Tracks R
        ((g.on run).runDescriptor descriptor kind t).2 := by
  obtain ⟨memory, session, visited⟩ := s
  obtain ⟨memory', session', visited'⟩ := t
  obtain ⟨hmemory, rfl, rfl⟩ := hst
  have hresult := h.result_eq descriptor memory memory' (session.openFrame kind) hmemory
  have hperformed := h.performed_eq descriptor memory memory' (session.openFrame kind) hmemory
  have hleft := h.memory descriptor memory memory' (session.openFrame kind) hmemory
  simp only [Graph.runDescriptor, on]
  rw [hresult, hperformed]
  exact ⟨rfl, hleft, rfl, rfl⟩

theorem Tracks.evaluate (h : Runner.Tracks R g.evaluator.run run)
    {follow : List Link → List String → Visit μ (List ResolvedUnit)}
    {follow' : List Link → List String → Visit ν (List ResolvedUnit)}
    (hfollow : ∀ below references, Tracks R (follow below references) (follow' below references))
    (below : List Link) (kind : DescriptorKind) (position : Nat) (link : Link) :
    Tracks R (g.evaluate follow below kind position link)
      ((g.on run).evaluate follow' below kind position link) := by
  refine .bind (.modified fun s t h => ⟨h.memory, h.session_eq, congrArg _ h.visited_eq⟩) fun _ =>
    .bind (.note _ rfl) fun _ => .get fun s t hst => ?_
  obtain ⟨hresult, hleft⟩ := Tracks.runDescriptor h link.descriptor kind hst
  rcases hrun : g.runDescriptor link.descriptor kind s with ⟨result, s'⟩
  rcases hrun' : (g.on run).runDescriptor link.descriptor kind t with ⟨result', t'⟩
  rw [hrun, hrun'] at hresult hleft
  obtain rfl : result = result' := hresult
  refine .bind (.set hleft) fun _ => ?_
  cases result with
  | error e => exact .throw _
  | ok frame =>
    exact .ite (.pure _) (.bind (.note _ rfl) fun _ => .bind (hfollow _ _) fun _ => .pure _)

theorem Tracks.visit (h : Runner.Tracks R g.evaluator.run run) (remaining : Nat) (below : List Link)
    (kind : DescriptorKind) (position : Nat) (reference : String) :
    Tracks R (g.visit remaining below kind position reference)
      ((g.on run).visit remaining below kind position reference) := by
  induction remaining using Nat.strongRecOn generalizing below kind position reference with
  | ind remaining ih =>
    rw [Graph.visit.eq_def, Graph.visit.eq_def]
    simp only [find?_on, resolvePath_on, links_on, chain_on, maxDepth_on]
    cases g.evaluator.find? (g.resolvePath reference) with
    | none => exact .throw _
    | some descriptor =>
      refine .ite (.bind (.throw _) fun _ => ?_) ?_
      all_goals
        cases remaining with
        | zero => exact .throw _
        | succ remaining =>
          refine .get fun s t hst => ?_
          rw [hst.visited_eq]
          refine .ite (.bind (.note _ rfl) fun _ => .pure _) (.evaluate h (fun below references => ?_) _ _ _ _)
          exact .inOrder (fun _ _ => ih remaining (Nat.lt_succ_self _) _ _ _ _) _ _

theorem Tracks.evaluateAll (h : Runner.Tracks R g.evaluator.run run) (references : List String) :
    Tracks R (g.evaluateAll references) ((g.on run).evaluateAll references) :=
  .inOrder (fun _ _ => .visit h _ _ _ _ _) _ _

theorem Tracks.evaluateOverride (h : Runner.Tracks R g.evaluator.run run) (reference : String) :
    Tracks R (g.evaluateOverride reference) ((g.on run).evaluateOverride reference) :=
  .visit h _ _ _ _ _

end Graph

end BuildComposition
