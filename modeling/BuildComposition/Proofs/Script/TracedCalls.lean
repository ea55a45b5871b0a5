import BuildComposition.Proofs.Script.CallTraces
import BuildComposition.Proofs.Script.LockstepRuns

/-!
# Traced calls

A run can keep a trace of the calls of the functions of `prj`.  The calls of a traced run also take the
session and give it back, and a call that does not find it free fails.  All that leaves the run as it is:
a call takes the session only after it has converted its arguments, and no script runs until it gives the
session back.

## Main definitions

* `Traced`, `tracedRequest`, `tracedWithin`: hosts with a trace, and calls that are traced
* `Since`, `Traces`: machines with and without a trace, and actions that do the same on both

## Main results

* `Traces.conversion`: a conversion reads its fields in order, and the calls that this leads to end first
* `traces_tracedRequest`: a call of a function of `prj`
* `mirrorsCalls_tracedWithin`: a traced run is the run that is not, and its trace is one of calls
-/

namespace BuildComposition.Script

/-! ## Traced calls -/

/-- A host with a trace of calls, and whether one of them is not done with the session. -/
structure Traced (σ : Type) where
  host : σ
  held : Bool
  trace : List Stage

namespace Machine

variable {σ : Type}

/-- The machine without the trace. -/
def untraced (m : Machine (Traced σ)) : Machine σ := { m with host := m.host.host }

/-- The machine with a trace that begins. -/
def traced (m : Machine σ) : Machine (Traced σ) := { m with host := ⟨m.host, false, []⟩ }

/-- The machine with one more stage in the trace. -/
def atStage (m : Machine (Traced σ)) (stage : Stage) : Machine (Traced σ) :=
  { m with host := { m.host with trace := m.host.trace ++ [stage] } }

end Machine

section

variable {σ : Type}

/-- Adds a stage to the trace. -/
def trace (stage : Stage) : Run (Traced σ) Unit := modify (·.atStage stage)

/-- Takes the session for a call, or fails if another call is not done with it. -/
def hold (o : Operation) : Run (Traced σ) Unit := do
  if (← get).host.held then
    trace (.running o)
    fail (.refused (.running o))
  else modify fun m => { m with host := { m.host with held := true } }

/-- Gives the session back at the last stage of a call. -/
def release (stage : Stage) : Run (Traced σ) Unit := do
  modify fun m => { m with host := { m.host with held := false } }
  trace stage

/-- Calls a value to read a field, which is traced. -/
def reading (invoke : Invoke (Traced σ)) : Invoke (Traced σ) := fun f args caller => do
  trace (.reads (args.getD 1 .nil))
  invoke f args caller

variable [Host σ]

instance : Host (Traced σ) :=
  ⟨fun w r => (Host.perform w.host r).map fun host => { w with host }⟩

/-- Performs a request of the call that has the session. -/
def performHeld (r : Request) : Run (Traced σ) Unit := do
  match Host.perform (← get).host r with
  | .ok host =>
    modify fun m => { m with host }
    release (.performed r)
  | .error e =>
    release (.refused r e)
    fail (.refused e)

/-- A call of a function of `prj`.  The arguments are converted before the session is taken. -/
def tracedRequest (invoke : Invoke (Traced σ)) (o : Operation) (args : List Value) (caller : Caller) :
    Run (Traced σ) (List Value) := do
  trace (.begins o args)
  let r ← tryCatch (conversion (reading invoke) o args caller) fun fault => do
    trace (.unconverted o)
    throw fault
  hold o
  performHeld r
  return []

/-- The functions of the library, of which those of `prj` are traced. -/
def tracedLibrary (invoke : Invoke (Traced σ)) : Library (Traced σ)
  | .request o, args, caller => tracedRequest invoke o args caller
  | b, args, caller => runBuiltin invoke b args caller

/-- Calls a value as `callWithin` does, and traces the calls of functions of `prj`. -/
def tracedWithin : Nat → Invoke (Traced σ)
  | 0 => fun _ _ caller => raise caller.sites "C stack overflow"
  | levels + 1 => fun f args caller => do
    match f with
    | .closure id =>
      let f ← load (·.closure id)
      grow (caller.height + 1 + args.length)
      putAll (caller.height + 1) args
      let a ← f.activate caller.height args.length none caller.sites
      iterate (Calls.stepBy (tracedLibrary (tracedWithin levels)) (tracedWithin levels) caller.sites)
        maxSteps ⟨a, []⟩
    | .builtin b => tracedLibrary (tracedWithin levels) b args caller
    | v => Calls.refuse caller.sites v

end

/-! ## Runs with and without a trace -/

section

variable {σ α β : Type}

/-- A machine without a trace, and one whose trace has grown since some point.  No call has the
session. -/
structure Since (P : σ → List Stage → σ → Prop) (start : Traced σ) (s : Machine (Traced σ))
    (t : Machine σ) : Prop where
  same : s.untraced = t
  free : s.host.held = false
  grown : ∃ trace, s.host.trace = start.trace ++ trace ∧ P start.host trace s.host.host

instance {P : σ → List Stage → σ → Prop} {start : Traced σ} : Lockstep (Since P start) where
  same h := by
    obtain ⟨rfl, -, -⟩ := h
    exact ⟨rfl, rfl, rfl⟩
  moved h _ _ _ _ := by
    obtain ⟨rfl, hfree, hgrown⟩ := h
    exact ⟨rfl, hfree, hgrown⟩

/-- From where no call has the session, both actions do the same, and the trace grows by something that
leads from one host to another. -/
def Traces (P : σ → List Stage → σ → Prop) (x : Run (Traced σ) α) (y : Run σ α) : Prop :=
  ∀ s : Machine (Traced σ), s.host.held = false →
    EndsLike (Since P s.host) Eq Eq (x.run s) (y.run s.untraced)

variable {P Q W : σ → List Stage → σ → Prop}

/-- Whatever has been traced before, both actions do the same, and a trace of the same kind goes on. -/
abbrev TracesOn (P : σ → List Stage → σ → Prop) (x : Run (Traced σ) α) (y : Run σ α) : Prop :=
  ∀ start, Mirrors (Since P start) x y

theorem Since.of_free {s : Machine (Traced σ)} (hfree : s.host.held = false)
    (hnil : P s.host.host [] s.host.host) : Since P s.host s s.untraced :=
  ⟨rfl, hfree, [], (List.append_nil _).symm, hnil⟩

/-- One trace after another. -/
theorem Since.append {start : Traced σ} {s u : Machine (Traced σ)} {t v : Machine σ} (h : Since P start s t)
    (h' : Since Q s.host u v) (hgo : ∀ s l t m u, P s l t → Q t m u → W s (l ++ m) u) :
    Since W start u v := by
  obtain ⟨-, -, before, hbefore, hP⟩ := h
  obtain ⟨hsame, hfree, after, hafter, hQ⟩ := h'
  exact ⟨hsame, hfree, before ++ after, by rw [hafter, hbefore, List.append_assoc], hgo _ _ _ _ _ hP hQ⟩

theorem Since.mono {start : Traced σ} {s : Machine (Traced σ)} {t : Machine σ} (h : Since P start s t)
    (hPQ : ∀ s l t, P s l t → Q s l t) : Since Q start s t := by
  obtain ⟨hsame, hfree, trace, htrace, hP⟩ := h
  exact ⟨hsame, hfree, trace, htrace, hPQ _ _ _ hP⟩

/-- A stage, and a trace that follows it. -/
theorem Since.of_atStage {s u : Machine (Traced σ)} {t : Machine σ} {stage : Stage}
    (h : Since P (s.atStage stage).host u t) (hgo : ∀ s l t, P s l t → Q s (stage :: l) t) :
    Since Q s.host u t := by
  obtain ⟨hsame, hfree, after, hafter, hP⟩ := h
  refine ⟨hsame, hfree, stage :: after, ?_, hgo _ _ _ hP⟩
  rw [hafter]
  exact List.append_assoc _ _ _

namespace Traces

variable {x : Run (Traced σ) α} {y : Run σ α}

theorem of_tracesOn (hnil : ∀ s, P s [] s) (h : TracesOn P x y) : Traces P x y :=
  fun s hfree => h s.host s s.untraced (.of_free hfree (hnil _))

/-- A trace goes on if two traces that follow one another are a trace. -/
theorem tracesOn (happend : ∀ s l t m u, P s l t → P t m u → P s (l ++ m) u) (h : Traces P x y) :
    TracesOn P x y := by
  intro start s t hst
  obtain rfl := hst.same
  exact (h s hst.free).mono fun _ _ h' => hst.append h' happend

theorem mono (h : Traces P x y) (hPQ : ∀ s l t, P s l t → Q s l t) : Traces Q x y :=
  fun s hfree => (h s hfree).mono fun _ _ h' => h'.mono hPQ

/-- What follows adds nothing of another kind. -/
theorem andThen {f : α → Run (Traced σ) β} {g : α → Run σ β} (h : Traces P x y)
    (hf : ∀ a, TracesOn P (f a) (g a)) : Traces P (x >>= f) (y >>= g) :=
  fun s hfree => (h s hfree).bind fun a _ heq => heq ▸ hf a s.host

theorem map (f : α → β) (h : Traces P x y) : Traces P (f <$> x) (f <$> y) := by
  rw [map_eq_pure_bind, map_eq_pure_bind]
  exact andThen h fun _ _ => .pure _

theorem tryCatch {handler : Fault → Run (Traced σ) α} {handler' : Fault → Run σ α} (h : Traces P x y)
    (hhandler : ∀ fault, TracesOn P (handler fault) (handler' fault)) :
    Traces P (MonadExcept.tryCatch x handler) (MonadExcept.tryCatch y handler') :=
  fun s hfree => endsLike_tryCatch (h s hfree) fun fault => hhandler fault s.host

/-- One trace after another, where the first one may also be all. -/
theorem bind {f : α → Run (Traced σ) β} {g : α → Run σ β} (h : Traces P x y)
    (hf : ∀ a, Traces Q (f a) (g a)) (hstop : ∀ s l t, P s l t → W s l t)
    (hgo : ∀ s l t m u, P s l t → Q t m u → W s (l ++ m) u) : Traces W (x >>= f) (y >>= g) := by
  intro s hfree
  have hends := h s hfree
  rw [EStateM.run_bind, EStateM.run_bind]
  generalize x.run s = r, y.run s.untraced = r' at hends
  cases hends with
  | @ok a _ u _ heq hst =>
    subst heq
    obtain rfl := hst.same
    exact (hf a u hst.free).mono fun _ _ h' => hst.append h' hgo
  | error heq hst => exact .error heq (hst.mono hstop)

/-- A stage, and what follows it. -/
theorem staged {stage : Stage} (h : Traces P x y) (hgo : ∀ s l t, P s l t → Q s (stage :: l) t) :
    Traces Q (trace stage >>= fun _ => x) y :=
  fun s hfree => (h (s.atStage stage) hfree).mono fun _ _ h' => h'.of_atStage hgo

end Traces

/-! ## Conversions -/

namespace Traces

variable {x : Run (Traced σ) α} {y : Run σ α} {c : Call (Traced σ)} {invoke' : Invoke σ}

theorem converting (position : Nat) {convert : Value → Run (Traced σ) α} {convert' : Value → Run σ α}
    (h : ∀ v, Traces P (convert v) (convert' v)) :
    Traces P (c.converting position convert) ((c.within invoke').converting position convert') := by
  refine tryCatch (h _) fun fault start => ?_
  cases fault with
  | thrown v => exact .bind (.load _) fun _ => .fail _
  | exhausted => exact .throw _

theorem describedAt (o : Operation) (position : Nat) {read : Nat → Run (Traced σ) α}
    {read' : Nat → Run σ α} (hnil : ∀ s, P s [] s) (h : ∀ id, Traces P (read id) (read' id)) :
    Traces P (c.describedAt o position read) ((c.within invoke').describedAt o position read') := by
  refine converting position fun v => ?_
  cases v with
  | table id => exact h id
  | _ => exact of_tracesOn hnil fun _ => .fail _

variable [Host σ] {fields : List String} {choices : List (List String)}

/-- An action that reads none of the fields through a metatable. -/
theorem quiet (hchoices : choices ≠ []) (h : TracesOn (ReadsInTurn choices) x y) :
    Traces (ReadsInTurn choices) x y := by
  obtain ⟨fields, hfields⟩ := List.exists_mem_of_ne_nil choices hchoices
  exact of_tracesOn (fun s => ⟨fields, hfields, .nil fields s⟩) h

/-- An action that reads the fields of one of the lists. -/
theorem choose (hfields : fields ∈ choices) (h : Traces (FieldsInTurn fields) x y) :
    Traces (ReadsInTurn choices) x y :=
  h.mono fun _ _ _ hl => ⟨fields, hfields, hl⟩

/-- The fields that are read first, and then all others. -/
theorem inTurn {f : α → Run (Traced σ) β} {g : α → Run σ β} (h : Traces (FieldsInTurn fields) x y)
    (hchoices : choices ≠ []) (hf : ∀ a, Traces (ReadsInTurn choices) (f a) (g a)) :
    Traces (ReadsInTurn (choices.map (fields ++ ·))) (x >>= f) (y >>= g) := by
  refine bind h hf (fun s l t hl => ?_) fun s l t m u hl hm => ?_
  · obtain ⟨more, hmore⟩ := List.exists_mem_of_ne_nil choices hchoices
    exact ⟨fields ++ more, List.mem_map_of_mem hmore, hl.weaken more⟩
  · obtain ⟨more, hmore, hm⟩ := hm
    exact ⟨fields ++ more, List.mem_map_of_mem hmore, hl.append hm⟩

variable {invoke : Invoke (Traced σ)} (h : ∀ start, MirrorsCalls (Since CallsInTurn start) invoke invoke')

include h

/-- The functions that an access leads to run at once. -/
theorem fieldOf (caller : Caller) (id : Nat) (name : String) :
    Traces (FieldsInTurn [name]) (fieldOf (reading invoke) caller id name)
      (fieldOf invoke' caller id name) := by
  refine bind (P := FieldsInTurn []) (of_tracesOn (.nil []) fun _ => .load _) (fun mt => ?_)
    (fun _ _ _ h => h.weaken [name]) fun _ _ _ _ _ => .append
  cases mt with
  | none => exact of_tracesOn (.nil [name]) fun _ => .peek id _
  | some mt =>
    -- the table has a metatable, and whatever is called for the field is called now
    refine andThen (staged (P := CallsInTurn) (of_tracesOn .nil fun start => h start _ _ _)
      fun s inner t hinner => ?_) fun _ _ => .pure _
    have hread : FieldsInTurn [name] s (.reads (.ofString name) :: (inner ++ [])) t :=
      .read hinner (.nil [] t)
    rwa [List.append_nil] at hread

variable (hc : c.invoke = reading invoke)

include hc

theorem field (id : Nat) (name : String) :
    Traces (FieldsInTurn [name]) (c.field id name) ((c.within invoke').field id name) := by
  unfold Call.field
  rw [hc]
  exact fieldOf h _ id name

theorem textField? (id : Nat) (name : String) :
    Traces (FieldsInTurn [name]) (c.textField? id name) ((c.within invoke').textField? id name) :=
  andThen (field h hc id name) fun v _ => .asText? v

theorem placementOf (id : Nat) : Traces (ReadsInTurn (readFields .placement)) (c.placementOf id)
    ((c.within invoke').placementOf id) := by
  have hsubdir : ["subdir"] ∈ [["subdir"], ["root"]] := List.mem_cons_self
  have hroot : ["root"] ∈ [["subdir"], ["root"]] := List.mem_cons_of_mem _ List.mem_cons_self
  have hne : [["subdir"], ["root"]] ≠ [] := List.cons_ne_nil _ _
  refine inTurn (textField? h hc id "kind") hne fun kind => ?_
  split
  · exact quiet hne fun _ => .fail _
  · exact quiet hne fun _ => .pure _
  · exact choose hsubdir (andThen (textField? h hc id "subdir") fun _ _ => .pure _)
  · exact choose hroot (andThen (textField? h hc id "root") fun _ _ => .pure _)
  · exact quiet hne fun _ => .fail _

theorem targetOf (id : Nat) : Traces (ReadsInTurn (readFields .target)) (c.targetOf id)
    ((c.within invoke').targetOf id) := by
  have hne : ∀ fields : List String, [fields] ≠ [] := fun _ => List.cons_ne_nil _ _
  have hsources : ∀ (name : String) (kind : TargetKind), Traces (FieldsInTurn ["sources"])
      (c.targetWith id name kind) ((c.within invoke').targetWith id name kind) := by
    refine fun name kind => andThen (field h hc id "sources") fun sources _ => ?_
    cases sources with
    | nil => exact .pure _
    | table sources => exact .bind (.items sources) fun vs => .bind (.asTexts vs) fun _ => .pure _
    | _ => exact .fail _
  refine inTurn (textField? h hc id "name") (hne ["kind", "sources"]) fun name => ?_
  split
  · exact quiet (hne _) fun _ => .fail _
  · exact quiet (hne _) fun _ => .fail _
  · next name _ =>
    refine inTurn (textField? h hc id "kind") (hne ["sources"]) fun kind => ?_
    refine choose (List.mem_singleton_self _) ?_
    cases kind with
    | none => exact hsources name .exe
    | some kind =>
      dsimp only
      cases TargetKind.ofName? kind with
      | some kind => exact hsources name kind
      | none =>
        exact bind (of_tracesOn (P := FieldsInTurn (σ := σ) []) (.nil []) fun _ => .fail _) (hsources name)
          (fun _ _ _ h => h.weaken _) fun _ _ _ _ _ => .append

/-- The arguments are converted as they are without a trace, and the fields are read in order. -/
theorem requestOf (o : Operation) :
    Traces (ReadsInTurn (readFields o)) (c.requestOf o) ((c.within invoke').requestOf o) := by
  have hne : [[]] ≠ ([] : List (List String)) := List.cons_ne_nil _ _
  cases o with
  | placement =>
    exact map _ (describedAt _ 1 (fun s => ⟨_, List.mem_cons_self, .nil _ s⟩) (placementOf h hc))
  | target =>
    exact map _ (describedAt _ 1 (fun s => ⟨_, List.mem_cons_self, .nil _ s⟩) (targetOf h hc))
  | showBrief => exact quiet hne fun _ => .pure _
  | globalDefine =>
    exact quiet hne fun _ => .bind (.textAt 1) fun _ => .bind (.converting 2 .asText?) fun _ => .pure _
  | _ => exact quiet hne fun _ => .map _ (.textAt 1)

omit hc in
theorem conversion (o : Operation) (args : List Value) (caller : Caller) :
    Traces (ReadsInTurn (readFields o)) (conversion (reading invoke) o args caller)
      (conversion invoke' o args caller) := by
  unfold Script.conversion
  dsimp only
  split
  · exact quiet (by cases o <;> exact List.cons_ne_nil _ _) fun _ => .raise _ _
  · exact requestOf h rfl o

end Traces

/-! ## Calls -/

/-- The machine that a run ends on. -/
def endOf : EStateM.Result Fault (Machine σ) α → Machine σ
  | .ok _ t | .error _ t => t

section

variable [Host σ]

/-- The last stage of a call, by what has become of the conversion. -/
def Stage.Settles (o : Operation) (converted : EStateM.Result Fault (Machine σ) Request) : Stage → Prop
  | unconverted o' => o' = o ∧ ∃ fault t, converted = .error fault t
  | performed r | refused r _ => ∃ t, converted = .ok r t
  | _ => False

/-- The trace of a call.  The fields are read first, with all calls that this leads to, and the last stage
starts from the host that the conversion ends with. -/
def CallOf (o : Operation) (args : List Value)
    (converted : EStateM.Result Fault (Machine σ) Request) (s : σ) (trace : List Stage) (u : σ) : Prop :=
  ∃ inner last, trace = .begins o args :: (inner ++ [last]) ∧
    ReadsInTurn (readFields o) s inner (endOf converted).host ∧ last.Settles o converted ∧
    last.Leads (endOf converted).host u

theorem CallOf.callsInTurn {o : Operation} {args : List Value}
    {converted : EStateM.Result Fault (Machine σ) Request} {s u : σ} {trace : List Stage}
    (h : CallOf o args converted s trace u)
    (hrequest : Ends (fun _ => True) (IsRequestOf o args) converted) : CallsInTurn s trace u := by
  obtain ⟨inner, last, rfl, ⟨fields, hfields, hinner⟩, hsettles, hleads⟩ := h
  refine .call hfields hinner ?_ hleads (.nil u)
  cases last with
  | unconverted o' => exact hsettles.1
  | performed r | refused r e =>
    obtain ⟨t, rfl⟩ := hsettles
    exact hrequest.2
  | _ => exact hsettles.elim

/-- A session that is free is taken, and a request is performed before it is given back. -/
theorem traces_performHeld (o : Operation) (r : Request) :
    Traces (fun s trace u => ∃ last : Stage, trace = [last] ∧ last.Leads s u ∧
        (last = .performed r ∨ ∃ e, last = .refused r e))
      (do hold o; performHeld r; return [] : Run (Traced σ) (List Value))
      (do perform r; return []) := by
  rintro ⟨memory, stack, captured, ⟨host, held, trace⟩⟩ rfl
  -- between taking the session and giving it back there is one request, and no script
  have htraced : Host.perform (⟨host, true, trace⟩ : Traced σ) r =
      (Host.perform host r).map fun host => ⟨host, true, trace⟩ := rfl
  have hhold : (hold o : Run (Traced σ) Unit).run ⟨memory, stack, captured, ⟨host, false, trace⟩⟩ =
      .ok () ⟨memory, stack, captured, ⟨host, true, trace⟩⟩ := rfl
  unfold performHeld perform
  simp only [EStateM.run_bind, hhold, EStateM.run_get, htraced, Machine.untraced]
  cases hperform : Host.perform host r with
  | ok host' => exact .ok rfl ⟨rfl, rfl, _, rfl, .performed r, rfl, hperform, .inl rfl⟩
  | error e => exact .error rfl ⟨rfl, rfl, _, rfl, .refused r e, rfl, ⟨hperform, rfl⟩, .inr ⟨e, rfl⟩⟩

variable {invoke : Invoke (Traced σ)} {invoke' : Invoke σ}
  (h : ∀ start, MirrorsCalls (Since CallsInTurn start) invoke invoke')

include h

/-- A call ends when the calls that its conversion leads to have ended. -/
theorem ends_tracedRequest (o : Operation) (args : List Value) (caller : Caller)
    {s : Machine (Traced σ)} (hfree : s.host.held = false) :
    EndsLike (Since (CallOf o args ((conversion invoke' o args caller).run s.untraced)) s.host) Eq Eq
      ((tracedRequest invoke o args caller).run s)
      ((runBuiltin invoke' (.request o) args caller).run s.untraced) := by
  have hends := Traces.conversion h o args caller (s.atStage (.begins o args)) hfree
  have hplain : (s.atStage (.begins o args)).untraced = s.untraced := rfl
  rw [hplain] at hends
  rw [runBuiltin_request, EStateM.run_bind]
  show EndsLike _ _ _ (EStateM.run (do
    let r ← tryCatch (conversion (reading invoke) o args caller) fun fault => do
      trace (.unconverted o)
      throw fault
    hold o
    performHeld r
    return []) (s.atStage (.begins o args))) _
  rw [EStateM.run_bind]
  generalize (conversion invoke' o args caller).run s.untraced = converted at hends ⊢
  -- the session is taken only if there is a request, and is free until then
  cases hconverted : (conversion (reading invoke) o args caller).run (s.atStage (.begins o args)) with
  | ok r u =>
    rw [hconverted] at hends
    obtain ⟨heq, hst⟩ | _ := hends
    subst heq
    obtain ⟨rfl, hfree', inner, hgrown, hinner⟩ := hst
    rw [run_tryCatch_of_ok hconverted]
    refine (traces_performHeld o r u hfree').mono ?_
    rintro v w ⟨hsame, hfree'', _, hgrown', last, rfl, hleads, hlast⟩
    refine ⟨hsame, hfree'', _, ?_, inner, last, rfl, hinner, ?_, hleads⟩
    · rw [hgrown', hgrown]
      simp [Machine.atStage]
    · rcases hlast with rfl | ⟨e, rfl⟩ <;> exact ⟨_, rfl⟩
  | error fault u =>
    rw [hconverted] at hends
    obtain _ | ⟨heq, hst⟩ := hends
    subst heq
    obtain ⟨rfl, hfree', inner, hgrown, hinner⟩ := hst
    rw [run_tryCatch_of_error hconverted]
    refine .error rfl ⟨rfl, hfree', _, ?_, inner, .unconverted o, rfl, hinner, ⟨rfl, _, _, rfl⟩, rfl⟩
    show u.host.trace ++ [_] = _
    rw [hgrown]
    simp [Machine.atStage]

theorem traces_tracedRequest (o : Operation) (args : List Value) (caller : Caller) :
    Traces CallsInTurn (tracedRequest invoke o args caller)
      (runBuiltin invoke' (.request o) args caller) :=
  fun s hfree => (ends_tracedRequest h o args caller hfree).mono fun _ _ h' => h'.mono fun _ _ _ hcall =>
    hcall.callsInTurn (Keeps.conversion invoke' o args caller s.untraced trivial)

/-- Library functions do the same with a trace. -/
theorem mirrorsLibrary_tracedLibrary (start : Traced σ) :
    MirrorsLibrary (Since CallsInTurn start) (tracedLibrary invoke) (runBuiltin invoke') := by
  intro b args caller
  unfold tracedLibrary
  split
  · next o => exact (traces_tracedRequest h o args caller).tracesOn (fun _ _ _ _ _ => .append) start
  · next hb => exact .runBuiltin (h start) hb args caller

end

/-- What is put into a table does not depend on the trace. -/
theorem Mirrors.assignOwn_since {start : Traced σ} (sites : Sites) (id : Nat) (key v : Value) :
    Mirrors (Since P start) (assignOwn sites id key v : Run (Traced σ) Unit) (assignOwn sites id key v) := by
  unfold assignOwn
  cases key.key? with
  | some k =>
    rintro s _ ⟨rfl, hfree, hgrown⟩
    exact .ok rfl ⟨rfl, hfree, hgrown⟩
  | none => cases key <;> exact raise _ _

variable [Host σ]

/-- A traced call of a value is the call that is not traced, and its trace is one of calls that follow
one another. -/
theorem mirrorsCalls_tracedWithin (levels : Nat) (start : Traced σ) :
    MirrorsCalls (Since CallsInTurn start) (tracedWithin levels) (callWithin levels : Invoke σ) := by
  -- on the levels: a library function calls with one level less, and its calls have a trace of their own,
  -- which starts elsewhere
  induction levels generalizing start with
  | zero => exact fun _ _ _ => .raise _ _
  | succ levels ih =>
    intro f args caller
    cases f with
    | closure id =>
      refine .bind (.load _) fun f => .bind (.grow _) fun _ => .bind (.putAll _ args) fun _ =>
        .bind (.activate f _ _ _ _) fun a => .iterate (fun c => ?_) _ _
      rw [Calls.step_eq_stepBy]
      exact .stepBy (mirrorsLibrary_tracedLibrary ih start) (ih start) _ _ fun _ _ _ =>
        .executeSet _ (ih start) _ _ _ _ fun _ _ _ => .assignOwn_since _ _ _ _
    | builtin b => exact mirrorsLibrary_tracedLibrary ih start b args caller
    | _ => exact .refuse _ _

end

end BuildComposition.Script
