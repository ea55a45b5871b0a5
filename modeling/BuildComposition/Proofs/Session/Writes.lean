import BuildComposition.Proofs.Session.Requests

/-!
# What requests write

Each request about the global settings stands for one write to them, and no other request writes to
them.  What a descriptor leaves in the settings is therefore known from the requests that took effect.

## Main definitions

* `Request.write?`: the write that a request makes

## Main results

* `Session.config_perform`: what one request writes
* `Performs.config_eq`: what a descriptor leaves in the settings
-/

namespace BuildComposition

/-- The write that a request makes to the global settings. -/
def Request.write? : Request → Option Change
  | globalIncludePath p => some (.includePath p)
  | globalCompilerOption o => some (.compilerOption o)
  | globalLinkerOption o => some (.linkerOption o)
  | globalDefine name value => some (.define name value)
  | cppStd s => some (.cppStd s)
  | runtimeMode name => (RuntimeMode.ofName? name).map .runtimeMode
  | showBrief => some .showBrief
  | placement p => some (.placement p)
  | target _ | includePath _ | compilerOption _ | linkerOption _ | lib _ | required _ => none

/-- A request that takes effect in a frame makes its write and no other. -/
theorem Request.change?_performed {f : Frame} {r : Request} {x : Effect}
    (h : r.effectIn f = .ok x) : (Event.performed r x).change? = r.write? := by
  cases r with
  | runtimeMode name =>
    simp only [effectIn] at h
    split at h
    · next hmode =>
      cases h
      simp [write?, hmode, Event.change?]
    · cases h
  | target t =>
    simp only [effectIn] at h
    split at h
    · cases h
    · cases h
      rfl
  | required reference =>
    simp only [effectIn] at h
    split at h
    · cases h
    · cases h
      rfl
  | _ =>
    cases h
    rfl

/-- A request that takes effect is noted, and makes its write. -/
theorem Session.config_perform {s t : Session} {r : Request} (h : s.perform r = .ok t) :
    ∃ x, t.journal = s.journal ++ [.performed r x] ∧
      t.config = s.config.applyAll r.write?.toList := by
  obtain ⟨f, x, -, -, hx, rfl⟩ := perform_eq_ok_iff.mp h
  rw [← Request.change?_performed hx]
  cases x with
  | change c => exact ⟨_, rfl, rfl⟩
  | frame f => exact ⟨_, rfl, rfl⟩

/-- What a descriptor leaves in the settings: the writes of the requests that it has noted, in order. -/
theorem Performs.exists_config {s t : Session} (h : Performs s t) :
    ∃ chunk, t.journal = s.journal ++ chunk ∧
      t.config = s.config.applyAll ((chunk.filterMap Event.request?).filterMap Request.write?) := by
  induction h with
  | refl => exact ⟨[], by simp, rfl⟩
  | @step t u r _ hr ih =>
    obtain ⟨chunk, hj, hc⟩ := ih
    obtain ⟨x, hj', hc'⟩ := Session.config_perform hr
    refine ⟨chunk ++ [.performed r x], by rw [hj', hj, List.append_assoc], ?_⟩
    rw [hc', hc, List.filterMap_append, List.filterMap_append, Config.applyAll_append]
    cases hw : r.write? <;> simp [Event.request?, hw]

/-- The settings that a descriptor leaves can be read off its part of the journal. -/
theorem Performs.config_eq {s t : Session} (h : Performs s t) {chunk : List Event}
    (hj : t.journal = s.journal ++ chunk) :
    t.config = s.config.applyAll ((chunk.filterMap Event.request?).filterMap Request.write?) := by
  obtain ⟨chunk', hj', hc⟩ := h.exists_config
  rw [hj, List.append_cancel_left_eq] at hj'
  rw [hc, hj']

end BuildComposition
