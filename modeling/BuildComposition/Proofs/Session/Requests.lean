import BuildComposition.Session

/-!
# What requests leave

A script reaches the composition through requests alone, so what it leaves in a session is known
without looking at the script: the journal grows by the requests that took effect, the frame becomes
what these make of it, and a setting that a source of defaults governs is written only if the frame
is that of an override.

## Main definitions

* `Change.isGoverned`, `Event.isGoverned`: writes to the settings that a source of defaults governs
* `Frame.after`: the documented effect of a request on a frame
* `Event.Permitted kind`: what may happen while a descriptor of a kind runs

## Main results

* `Session.perform_eq_ok`: what one request does
* `Performs.exists_chunk`: what a descriptor leaves
* `Performs.eq_of_idle`: without a frame nothing happens
-/

namespace BuildComposition

/-- The write is to a setting that a source of defaults governs. -/
def Change.isGoverned : Change → Bool
  | .runtimeMode _ | .placement _ | .showBrief => true
  | _ => false

/-- The event wrote a setting that a source of defaults governs. -/
def Event.isGoverned (e : Event) : Bool := e.change?.any Change.isGoverned

/-- The request that took effect. -/
def Event.request? : Event → Option Request
  | .performed r _ => some r
  | _ => none

/-- The reference that a request queues. -/
def Request.reference? : Request → Option String
  | .required reference => some reference
  | _ => none

namespace Frame

/-- What a frame is once a request has taken effect. -/
def after (f : Frame) : Request → Frame
  | .target t => { f with target := some t }
  | .includePath p => { f with settings.includePaths := f.settings.includePaths ++ [p] }
  | .compilerOption o => { f with settings.compilerOptions := f.settings.compilerOptions ++ [o] }
  | .linkerOption o => { f with settings.linkerOptions := f.settings.linkerOptions ++ [o] }
  | .lib name => { f with settings.libs := f.settings.libs ++ [name] }
  | .required reference => { f with required := f.required ++ [reference] }
  | _ => f

@[simp] theorem kind_after (f : Frame) (r : Request) : (f.after r).kind = f.kind := by
  cases r <;> rfl

@[simp] theorem required_after (f : Frame) (r : Request) :
    (f.after r).required = f.required ++ r.reference?.toList := by
  cases r <;> simp [after, Request.reference?]

@[simp] theorem kind_foldl_after (requests : List Request) (f : Frame) :
    (requests.foldl after f).kind = f.kind := by
  induction requests generalizing f with
  | nil => rfl
  | cons r requests ih => rw [List.foldl_cons, ih, kind_after]

/-- The queue of a frame is what its requests have put there, in order. -/
@[simp] theorem required_foldl_after (requests : List Request) (f : Frame) :
    (requests.foldl after f).required = f.required ++ requests.filterMap Request.reference? := by
  induction requests generalizing f with
  | nil => simp
  | cons r requests ih =>
    rw [List.foldl_cons, ih, required_after, List.append_assoc]
    cases h : r.reference? <;> simp [h]

end Frame

/-- A request that is not refused puts the frame into its documented state, or makes one write, which
is governed if the request is. -/
theorem Request.effectIn_eq_ok {f : Frame} {r : Request} {x : Effect} (h : r.effectIn f = .ok x) :
    x = .frame (f.after r) ∨
      f.after r = f ∧ ∃ c, x = .change c ∧ c.isGoverned = r.operation.isGoverned := by
  cases r with
  | runtimeMode name =>
    simp only [effectIn] at h
    split at h
    · cases h
      exact .inr ⟨rfl, _, rfl, rfl⟩
    · cases h
  | target t =>
    simp only [effectIn] at h
    split at h
    · cases h
    · cases h
      exact .inl rfl
  | required reference =>
    simp only [effectIn] at h
    split at h
    · cases h
    · cases h
      exact .inl rfl
  | includePath | compilerOption | linkerOption | lib =>
    cases h
    exact .inl rfl
  | _ =>
    cases h
    exact .inr ⟨rfl, _, rfl, rfl⟩

/-- What may happen while a descriptor of a kind runs: a request takes effect, and it writes a
governed setting only if it is about one and the descriptor is an override. -/
def Event.Permitted (kind : DescriptorKind) (e : Event) : Prop :=
  ∃ r x, e = .performed r x ∧
    (e.isGoverned = true → r.operation.isGoverned = true ∧ kind = .override)

/-- A request takes effect exactly if a frame is open that may make it, and the request is not refused
for what it asks. -/
theorem Session.perform_eq_ok_iff {s t : Session} {r : Request} : s.perform r = .ok t ↔
    ∃ f x, s.frame = some f ∧ (r.operation.isGoverned = true → f.kind = .override) ∧
      r.effectIn f = .ok x ∧ t = s.after r x := by
  unfold perform Request.effect
  cases s.frame with
  | none => simp [Except.map]
  | some f =>
    by_cases hkind : r.operation.isGoverned = true ∧ f.kind ≠ .override
    · simp only [if_pos hkind, Except.map, reduceCtorEq, false_iff]
      rintro ⟨_, _, ⟨⟩, hoverride, -⟩
      exact hkind.2 (hoverride hkind.1)
    · have hoverride : r.operation.isGoverned = true → f.kind = .override := by simpa using hkind
      simp only [if_neg hkind, Option.some.injEq]
      cases hx : r.effectIn f with
      | error e => simp [Except.map, hx]
      | ok x =>
        refine ⟨fun h => ⟨f, x, rfl, hoverride, hx, (Except.ok.inj h).symm⟩, ?_⟩
        rintro ⟨_, y, rfl, -, hy, rfl⟩
        rw [hx] at hy
        cases hy
        rfl

/-- A request that takes effect finds a frame, changes it as documented, and is noted. -/
theorem Session.perform_eq_ok {s t : Session} {r : Request} (h : s.perform r = .ok t) :
    ∃ f x, s.frame = some f ∧ t.frame = some (f.after r) ∧
      t.journal = s.journal ++ [.performed r x] ∧ (Event.performed r x).Permitted f.kind := by
  obtain ⟨f, x, hf, hoverride, hx, rfl⟩ := perform_eq_ok_iff.mp h
  refine ⟨f, x, hf, ?_, ?_, r, x, rfl, ?_⟩
  · rcases Request.effectIn_eq_ok hx with rfl | ⟨hsame, c, rfl, -⟩
    · rfl
    · rw [hsame]
      exact hf
  · cases x <;> rfl
  -- a governed write comes from a governed request, which only an override may make
  · intro hgov
    rcases Request.effectIn_eq_ok hx with rfl | ⟨-, c, rfl, hc⟩
    · simp [Event.isGoverned, Event.change?] at hgov
    · have hr : r.operation.isGoverned = true := by
        rw [← hc]
        simpa [Event.isGoverned, Event.change?] using hgov
      exact ⟨hr, hoverride hr⟩

/-- Where no descriptor runs, no request takes effect. -/
theorem Performs.eq_of_idle {s t : Session} (h : Performs s t) (hs : s.frame = none) : t = s := by
  induction h with
  | refl => rfl
  | step _ hr ih =>
    obtain ⟨f, _, hf, -⟩ := Session.perform_eq_ok hr
    rw [ih, hs] at hf
    cases hf

/-- What a descriptor leaves: its requests in the journal, and the frame that they make. -/
theorem Performs.exists_chunk {s t : Session} {f : Frame} (h : Performs s t)
    (hs : s.frame = some f) :
    ∃ chunk, t.journal = s.journal ++ chunk ∧
      t.frame = some ((chunk.filterMap Event.request?).foldl Frame.after f) ∧
      ∀ e ∈ chunk, e.Permitted f.kind := by
  induction h with
  | refl => exact ⟨[], by simp, hs, by simp⟩
  | @step t u r _ hr ih =>
    obtain ⟨chunk, hj, hf, hp⟩ := ih
    obtain ⟨f', x, hf', hu, hj', hp'⟩ := Session.perform_eq_ok hr
    rw [hf] at hf'
    cases hf'
    refine ⟨chunk ++ [.performed r x], ?_, ?_, ?_⟩
    · rw [hj', hj, List.append_assoc]
    · rw [hu, List.filterMap_append, List.foldl_append]
      rfl
    · intro e he
      rcases List.mem_append.mp he with he | he
      · exact hp e he
      · rw [List.mem_singleton.mp he]
        simpa using hp'

end BuildComposition
