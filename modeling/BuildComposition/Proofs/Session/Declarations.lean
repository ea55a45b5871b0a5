import BuildComposition.Proofs.Session.Requests

/-!
# What a descriptor declares

The settings of a unit are lists, and each of them holds the values of the requests about it, in order.
A target is declared once at most, because a second one is refused.

## Main definitions

* `LocalSetting`: the settings of a unit
* `LocalSetting.values`, `LocalSetting.value?`: what a list holds, and what a request adds to it
* `Request.target?`, `Session.target?`: the target that a request declares, and the one that is declared

## Main results

* `LocalSetting.values_foldl_after`: a list holds the values of all requests about it
* `Performs.target_eq`: the target is that of the only request that has declared one
-/

namespace BuildComposition

/-- The settings of a unit. -/
inductive LocalSetting where
  | includePaths
  | compilerOptions
  | linkerOptions
  | libs
  deriving DecidableEq, Repr

namespace LocalSetting

/-- The values that a list of the settings holds. -/
def values (s : LocalSettings) : LocalSetting → List String
  | includePaths => s.includePaths
  | compilerOptions => s.compilerOptions
  | linkerOptions => s.linkerOptions
  | libs => s.libs

/-- The value that a request adds to a list. -/
def value? : LocalSetting → Request → Option String
  | includePaths, .includePath p => some p
  | compilerOptions, .compilerOption o => some o
  | linkerOptions, .linkerOption o => some o
  | libs, .lib name => some name
  | _, _ => none

@[simp] theorem values_empty (setting : LocalSetting) : setting.values .empty = [] := by
  cases setting <;> rfl

theorem values_after (setting : LocalSetting) (f : Frame) (r : Request) :
    setting.values (f.after r).settings = setting.values f.settings ++ (setting.value? r).toList := by
  cases setting <;> cases r <;> simp [values, value?, Frame.after]

/-- A list holds the values of all requests about it, in order. -/
theorem values_foldl_after (setting : LocalSetting) (requests : List Request) (f : Frame) :
    setting.values (requests.foldl Frame.after f).settings =
      setting.values f.settings ++ requests.filterMap setting.value? := by
  induction requests generalizing f with
  | nil => simp
  | cons r requests ih =>
    rw [List.foldl_cons, ih, values_after, List.append_assoc]
    cases h : setting.value? r <;> simp [h]

end LocalSetting

/-- The target that a request declares. -/
def Request.target? : Request → Option Target
  | .target t => some t
  | _ => none

/-- A request that takes effect declares a target only if there was none. -/
theorem Request.target_after {f : Frame} {r : Request} {x : Effect} (h : r.effectIn f = .ok x) :
    (f.after r).target.toList = f.target.toList ++ r.target?.toList := by
  cases r with
  | target t =>
    simp only [effectIn] at h
    split at h
    · cases h
    · next hnone => rw [hnone]; rfl
  | _ => exact (List.append_nil _).symm

/-- The target that the descriptor that runs has declared. -/
def Session.target? (s : Session) : Option Target := s.frame.bind (·.target)

theorem Session.target?_perform {s t : Session} {r : Request} (h : s.perform r = .ok t) :
    t.target?.toList = s.target?.toList ++ r.target?.toList := by
  obtain ⟨f, x, hf, -, hx, -⟩ := perform_eq_ok_iff.mp h
  obtain ⟨f', -, hf', ht, -⟩ := perform_eq_ok h
  rw [hf, Option.some.injEq] at hf'
  subst hf'
  rw [target?, target?, hf, ht]
  exact Request.target_after hx

/-- The target that a descriptor leaves is the one that it had, or that of the only request that has
declared one. -/
theorem Performs.target_eq {s t : Session} {f f' : Frame} (h : Performs s t)
    (hs : s.frame = some f) (ht : t.frame = some f') {chunk : List Event}
    (hj : t.journal = s.journal ++ chunk) : f'.target.toList =
      f.target.toList ++ (chunk.filterMap Event.request?).filterMap Request.target? := by
  induction h generalizing chunk f' with
  | refl =>
    rw [hs, Option.some.injEq] at ht
    rw [List.self_eq_append_right] at hj
    simp [ht, hj]
  | @step t u r hperforms hr ih =>
    obtain ⟨before, hbefore, -⟩ := hperforms.exists_chunk hs
    obtain ⟨_, x, hbetween, hafter, hnoted, -⟩ := Session.perform_eq_ok hr
    obtain ⟨between, _, hbetween', -, hx, -⟩ := Session.perform_eq_ok_iff.mp hr
    rw [hbetween, Option.some.injEq] at hbetween'
    rw [hafter, Option.some.injEq] at ht
    rw [hnoted, hbefore, List.append_assoc, List.append_cancel_left_eq] at hj
    rw [← ht, hbetween', Request.target_after hx, ih (hbetween' ▸ hbetween) hbefore, ← hj,
      List.filterMap_append, List.filterMap_append, List.append_assoc]
    cases htarget : r.target? <;> simp [Event.request?, htarget]

end BuildComposition
