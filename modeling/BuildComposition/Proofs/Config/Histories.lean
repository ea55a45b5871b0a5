import BuildComposition.Config

/-!
# Settings and the writes that made them

The settings are what writes make of them one after the other, and each setting depends on the writes to
itself alone: a list holds the values of all of them in order, also repeated ones, and a single value is
that of the last one.

## Main definitions

* `ListSetting`, `SingleSetting`: the settings that are lists, and those with one value
* `ListSetting.values`, `ListSetting.value?`: what a list holds, and what a write adds to it
* `SingleSetting.value`, `SingleSetting.value?`: what a single setting is, and what a write makes it
* `Change.cppStd?`: the standard that a write sets

## Main results

* `ListSetting.values_applyAll`: a list holds the values of all writes to it
* `SingleSetting.value_applyAll`: a single setting is what the last write has made it
* `showBrief_applyAll`: brief output stays on once it is asked for
-/

namespace BuildComposition

/-- The settings that are lists. -/
inductive ListSetting where
  | includePaths
  | compilerOptions
  | linkerOptions
  | defines
  deriving DecidableEq, Repr

namespace ListSetting

/-- The values that a list of the settings holds. -/
def values (c : Config) : ListSetting → List String
  | includePaths => c.includePaths
  | compilerOptions => c.compilerOptions
  | linkerOptions => c.linkerOptions
  | defines => c.defines

/-- The value that a write adds to a list. -/
def value? : ListSetting → Change → Option String
  | includePaths, .includePath p => some p
  | compilerOptions, .compilerOption o => some o
  | linkerOptions, .linkerOption o => some o
  | defines, .define name value => some (defineText name value)
  | _, _ => none

@[simp] theorem values_empty (setting : ListSetting) : setting.values .empty = [] := by
  cases setting <;> rfl

theorem values_apply (setting : ListSetting) (c : Config) (d : Change) :
    setting.values (c.apply d) = setting.values c ++ (setting.value? d).toList := by
  cases setting <;> cases d <;> simp [values, value?, Config.apply]

/-- A list holds the values of all writes to it, in order. -/
theorem values_applyAll (setting : ListSetting) (c : Config) (changes : List Change) :
    setting.values (c.applyAll changes) =
      setting.values c ++ changes.filterMap setting.value? := by
  induction changes generalizing c with
  | nil => simp
  | cons d changes ih =>
    rw [Config.applyAll_cons, ih, values_apply, List.append_assoc]
    cases h : setting.value? d <;> simp [h]

end ListSetting

/-- The standard that a write sets. -/
def Change.cppStd? : Change → Option String
  | .cppStd s => some s
  | _ => none

/-- The settings that have one value, or none yet. -/
inductive SingleSetting where
  | cppStd
  | runtimeMode
  | placement
  deriving DecidableEq, Repr

namespace SingleSetting

/-- What a setting can be. -/
abbrev Value : SingleSetting → Type
  | cppStd => String
  | runtimeMode => RuntimeMode
  | placement => Placement

/-- The value of a setting. -/
def value (c : Config) : (setting : SingleSetting) → Option setting.Value
  | cppStd => c.cppStd
  | runtimeMode => c.runtimeMode
  | placement => c.placement

/-- The value that a write gives a setting. -/
def value? : (setting : SingleSetting) → Change → Option setting.Value
  | cppStd => Change.cppStd?
  | runtimeMode => fun
    | .runtimeMode m => some m
    | _ => none
  | placement => fun
    | .placement p => some p
    | _ => none

@[simp] theorem value_empty (setting : SingleSetting) : setting.value .empty = none := by
  cases setting <;> rfl

theorem value_apply (setting : SingleSetting) (c : Config) (d : Change) :
    setting.value (c.apply d) = (setting.value? d).or (setting.value c) := by
  cases setting <;> cases d <;> rfl

/-- A setting is what the last write to it has made it, or what it was before. -/
theorem value_applyAll (setting : SingleSetting) (c : Config) (changes : List Change) :
    setting.value (c.applyAll changes) =
      (changes.filterMap setting.value?).getLast?.or (setting.value c) := by
  induction changes generalizing c with
  | nil => simp
  | cons d changes ih =>
    rw [Config.applyAll_cons, ih, value_apply]
    cases hd : setting.value? d with
    | none => rw [List.filterMap_cons_none hd, Option.none_or]
    | some value =>
      rw [List.filterMap_cons_some hd, List.getLast?_cons]
      cases (changes.filterMap setting.value?).getLast? <;> rfl

end SingleSetting

/-- The standard is that of the last write that sets one, or the one from before. -/
theorem cppStd_applyAll (c : Config) (changes : List Change) :
    (c.applyAll changes).cppStd = (changes.filterMap Change.cppStd?).getLast?.or c.cppStd :=
  SingleSetting.value_applyAll .cppStd c changes

theorem showBrief_apply (c : Config) (d : Change) :
    (c.apply d).showBrief = true ↔ d = .showBrief ∨ c.showBrief = true := by
  cases d <;> simp [Config.apply]

/-- Brief output is on once it was asked for. -/
theorem showBrief_applyAll (c : Config) (changes : List Change) :
    (c.applyAll changes).showBrief = true ↔ .showBrief ∈ changes ∨ c.showBrief = true := by
  induction changes generalizing c with
  | nil => simp
  | cons d changes ih =>
    rw [Config.applyAll_cons, ih, showBrief_apply, List.mem_cons, eq_comm (a := d), or_assoc,
      or_left_comm]

end BuildComposition
