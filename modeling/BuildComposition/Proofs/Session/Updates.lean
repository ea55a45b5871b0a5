import BuildComposition.Proofs.Config.Histories
import BuildComposition.Proofs.Session.Declarations
import Mathlib.Data.List.Induction

/-!
# What a request changes

A request that takes effect is one update: a list gets one more value at its end, or a single value is
set, and everything else stays as it is.  A request that does not take effect is refused for one of
five reasons.  That a frame is open is checked first, next that it may make the request, and last
what the request asks for.

## Main definitions

* `Update`, `Update.config`, `Update.frame`: one update, and what it does to the settings and to a frame
* `Request.update?`: the update that a request asks for
* `Refuses`: why a request is refused
* `Config.Written`: settings that writes make of empty ones

## Main results

* `Session.perform_update`: a request that takes effect is the update that it asks for
* `Session.perform_eq_error_iff`: a request is refused exactly for the documented reasons
* `Session.exists_of_config`: all settings and all frames are those of a session
-/

namespace BuildComposition

/-- The settings with one more value at the end of a list. -/
def ListSetting.append (c : Config) (value : String) : ListSetting → Config
  | includePaths => { c with includePaths := c.includePaths ++ [value] }
  | compilerOptions => { c with compilerOptions := c.compilerOptions ++ [value] }
  | linkerOptions => { c with linkerOptions := c.linkerOptions ++ [value] }
  | defines => { c with defines := c.defines ++ [value] }

/-- The settings of a unit with one more value at the end of a list. -/
def LocalSetting.append (s : LocalSettings) (value : String) : LocalSetting → LocalSettings
  | includePaths => { s with includePaths := s.includePaths ++ [value] }
  | compilerOptions => { s with compilerOptions := s.compilerOptions ++ [value] }
  | linkerOptions => { s with linkerOptions := s.linkerOptions ++ [value] }
  | libs => { s with libs := s.libs ++ [value] }

/-- One value more in one list, or one value that is set. -/
inductive Update where
  /-- A value for a list of the global settings. -/
  | shared (list : ListSetting) (value : String)
  | cppStd (std : String)
  | runtimeMode (mode : RuntimeMode)
  | placement (placement : Placement)
  | showBrief
  /-- A value for a list of the unit's own settings. -/
  | own (list : LocalSetting) (value : String)
  | target (target : Target)
  /-- A reference for the queue. -/
  | required (reference : String)
  deriving DecidableEq, Repr

namespace Update

/-- The global settings after an update. -/
def config (c : Config) : Update → Config
  | shared list value => list.append c value
  | cppStd std => { c with cppStd := some std }
  | runtimeMode mode => { c with runtimeMode := some mode }
  | placement p => { c with placement := some p }
  | showBrief => { c with showBrief := true }
  | own _ _ | target _ | required _ => c

/-- A frame after an update. -/
def frame (f : Frame) : Update → Frame
  | own list value => { f with settings := list.append f.settings value }
  | target t => { f with target := some t }
  | required reference => { f with required := f.required ++ [reference] }
  | shared _ _ | cppStd _ | runtimeMode _ | placement _ | showBrief => f

end Update

/-- The update that a request asks for, if there is what it asks for. -/
def Request.update? : Request → Option Update
  | globalIncludePath p => some (.shared .includePaths p)
  | globalCompilerOption o => some (.shared .compilerOptions o)
  | globalLinkerOption o => some (.shared .linkerOptions o)
  | globalDefine name value => some (.shared .defines (defineText name value))
  | cppStd std => some (.cppStd std)
  | runtimeMode name => (RuntimeMode.ofName? name).map .runtimeMode
  | showBrief => some .showBrief
  | placement p => some (.placement p)
  | target t => some (.target t)
  | includePath p => some (.own .includePaths p)
  | compilerOption o => some (.own .compilerOptions o)
  | linkerOption o => some (.own .linkerOptions o)
  | lib name => some (.own .libs name)
  | required reference => some (.required reference)

/-- What a request does in a frame is the update that it asks for. -/
theorem Request.update_of_effectIn {f : Frame} {r : Request} {x : Effect} (h : r.effectIn f = .ok x) :
    ∃ u, r.update? = some u ∧ ∀ s : Session, s.frame = some f →
      (s.after r x).config = u.config s.config ∧ (s.after r x).frame = some (u.frame f) := by
  cases r with
  | runtimeMode name =>
    simp only [effectIn] at h
    split at h
    · next m hm =>
      cases h
      exact ⟨.runtimeMode m, by simp [update?, hm], fun s hs => ⟨rfl, hs⟩⟩
    · cases h
  | target t =>
    simp only [effectIn] at h
    split at h
    · cases h
    · cases h
      exact ⟨.target t, rfl, fun _ _ => ⟨rfl, rfl⟩⟩
  | required reference =>
    simp only [effectIn] at h
    split at h
    · cases h
    · cases h
      exact ⟨.required reference, rfl, fun _ _ => ⟨rfl, rfl⟩⟩
  | includePath | compilerOption | linkerOption | lib =>
    cases h
    exact ⟨_, rfl, fun _ _ => ⟨rfl, rfl⟩⟩
  | _ =>
    cases h
    exact ⟨_, rfl, fun _ hs => ⟨rfl, hs⟩⟩

/-- A request that takes effect is the one update that it asks for, in a frame that may make it. -/
theorem Session.perform_update {s t : Session} {r : Request} (h : s.perform r = .ok t) :
    ∃ f u, s.frame = some f ∧ (r.operation.isGoverned = true → f.kind = .override) ∧
      r.update? = some u ∧ t.config = u.config s.config ∧ t.frame = some (u.frame f) := by
  obtain ⟨f, x, hf, hoverride, hx, rfl⟩ := perform_eq_ok_iff.mp h
  obtain ⟨u, hu, hafter⟩ := Request.update_of_effectIn hx
  exact ⟨f, u, hf, hoverride, hu, hafter s hf⟩

/-- Why a request is refused, where a frame is open or none is. -/
inductive Refuses : Option Frame → Request → Refusal → Prop
  | noDescriptor (r : Request) : Refuses none r (.noDescriptor r.operation)
  | overrideOnly {f : Frame} {r : Request} (hgoverned : r.operation.isGoverned = true)
      (hkind : f.kind ≠ .override) : Refuses (some f) r (.overrideOnly r.operation)
  | unknownMode {f : Frame} {name : String} (hkind : f.kind = .override)
      (hname : RuntimeMode.ofName? name = none) :
      Refuses (some f) (.runtimeMode name) (.unknownMode name)
  | targetDeclared {f : Frame} {declared : Target} (t : Target) (htarget : f.target = some declared) :
      Refuses (some f) (.target t) (.targetDeclared declared.name)
  | emptyReference (f : Frame) : Refuses (some f) (.required "") .emptyReference

/-- What a request asks for is checked in a frame that may make it. -/
theorem Request.effectIn_eq_error_iff {f : Frame} {r : Request} {e : Refusal}
    (hkind : r.operation.isGoverned = true → f.kind = .override) :
    r.effectIn f = .error e ↔ Refuses (some f) r e := by
  constructor
  · intro h
    cases r with
    | runtimeMode name =>
      simp only [effectIn] at h
      split at h
      · cases h
      · next hname =>
        cases h
        exact .unknownMode (hkind rfl) hname
    | target t =>
      simp only [effectIn] at h
      split at h
      · next htarget =>
        cases h
        exact .targetDeclared t htarget
      · cases h
    | required reference =>
      simp only [effectIn] at h
      split at h
      · next hempty =>
        cases h
        exact hempty ▸ .emptyReference f
      · cases h
    | _ => cases h
  · intro h
    cases h with
    | overrideOnly hgoverned hother => exact absurd (hkind hgoverned) hother
    | unknownMode _ hname => simp [effectIn, hname]
    | targetDeclared t htarget => simp [effectIn, htarget]
    | emptyReference => rfl

/-- A request is refused exactly for the documented reasons. -/
theorem Session.perform_eq_error_iff {s : Session} {r : Request} {e : Refusal} :
    s.perform r = .error e ↔ Refuses s.frame r e := by
  have hperform : s.perform r = .error e ↔ r.effect s.frame = .error e := by
    unfold perform
    cases r.effect s.frame <;> simp [Except.map]
  rw [hperform]
  cases s.frame with
  | none =>
    constructor
    · rintro ⟨⟩
      exact .noDescriptor r
    · rintro ⟨⟩
      rfl
  | some f =>
    by_cases hkind : r.operation.isGoverned = true ∧ f.kind ≠ .override
    · simp only [Request.effect, if_pos hkind]
      constructor
      · rintro ⟨⟩
        exact .overrideOnly hkind.1 hkind.2
      -- no other reason fits a governed request in another frame than that of the override
      · intro h
        cases h with
        | overrideOnly => rfl
        | unknownMode hoverride => exact absurd hoverride hkind.2
        | targetDeclared => cases hkind.1
        | emptyReference => cases hkind.1
    · simp only [Request.effect, if_neg hkind]
      exact Request.effectIn_eq_error_iff (by simpa using hkind)

/-! ## All settings and frames -/

/-- Some writes make the settings of empty ones. -/
def Config.Written (c : Config) : Prop := ∃ changes, Config.empty.applyAll changes = c

namespace Config.Written

theorem empty : Config.empty.Written := ⟨[], rfl⟩

theorem apply {c d : Config} (h : c.Written) (change : Change) (hd : c.apply change = d) :
    d.Written := by
  obtain ⟨changes, rfl⟩ := h
  exact ⟨changes ++ [change], by rw [applyAll_append, ← hd]; rfl⟩

end Config.Written

theorem Config.written (c : Config) : c.Written := by
  obtain ⟨includes, options, links, defines, std, mode, placement, brief⟩ := c
  have hstd : Written ⟨[], [], [], [], std, none, none, false⟩ := by
    cases std with
    | none => exact .empty
    | some s => exact Written.empty.apply (.cppStd s) rfl
  have hmode : Written ⟨[], [], [], [], std, mode, none, false⟩ := by
    cases mode with
    | none => exact hstd
    | some m => exact hstd.apply (.runtimeMode m) rfl
  have hplacement : Written ⟨[], [], [], [], std, mode, placement, false⟩ := by
    cases placement with
    | none => exact hmode
    | some p => exact hmode.apply (.placement p) rfl
  have hbrief : Written ⟨[], [], [], [], std, mode, placement, brief⟩ := by
    cases brief with
    | false => exact hplacement
    | true => exact hplacement.apply .showBrief rfl
  have hdefines : Written ⟨[], [], [], defines, std, mode, placement, brief⟩ := by
    induction defines using List.reverseRecOn with
    | nil => exact hbrief
    | append_singleton _ d ih => exact ih.apply (.define d none) rfl
  have hlinks : Written ⟨[], [], links, defines, std, mode, placement, brief⟩ := by
    induction links using List.reverseRecOn with
    | nil => exact hdefines
    | append_singleton _ o ih => exact ih.apply (.linkerOption o) rfl
  have hoptions : Written ⟨[], options, links, defines, std, mode, placement, brief⟩ := by
    induction options using List.reverseRecOn with
    | nil => exact hlinks
    | append_singleton _ o ih => exact ih.apply (.compilerOption o) rfl
  induction includes using List.reverseRecOn with
  | nil => exact hoptions
  | append_singleton _ p ih => exact ih.apply (.includePath p) rfl

/-- Every session state is there: all settings, with all frames or none. -/
theorem Session.exists_of_config (c : Config) (frame : Option Frame) :
    ∃ s : Session, s.config = c ∧ s.frame = frame := by
  obtain ⟨changes, rfl⟩ := c.written
  have hwrites : (changes.map Event.changed).filterMap Event.change? = changes := by
    rw [List.filterMap_map]
    exact List.filterMap_some
  exact ⟨⟨Config.empty.applyAll changes, frame, changes.map .changed, by rw [hwrites]⟩, rfl, rfl⟩

end BuildComposition
