import BuildComposition.Proofs.Script.Reads
import BuildComposition.Proofs.Text.Ascii
import BuildComposition.RootSpec
import Mathlib.Data.List.Forall2

/-!
# The grammar of root tables

A table without metatables is a root if all its keys are names of fields and the value of each field is of
the right kind.  This is said here without the reader, value by value, and so is the order in which the
values are to be looked at.

## Main definitions

* `WithoutMetatables`: tables of which nothing is handed over to a script
* `IsRoot`: a table declares a specification
* `Check`, `rootChecks`, `FirstFailed`: what has to hold of a root, in order, and the first thing that
  does not

## Main results

* `Key.fault?_eq_none_iff`: the keys that are names of fields
* `IsRoot.unique`: a table declares one specification at most
* `IsRoot.holds`: a table that declares one passes all checks
-/

namespace BuildComposition

open Script

namespace Script

/-- The value of a field of a table. -/
def Memory.field (m : Memory) (id : Nat) (name : String) : Value := (m.table id).get (.str (bytes name))

/-- The keys in which nothing is wrong are the names of fields. -/
theorem Key.fault?_eq_none_iff {a : Addresses} {k : Key} :
    k.fault? a = none ↔ ∃ f ∈ RootSpec.fields, k = .str (bytes f) := by
  have hplain : ∀ f ∈ RootSpec.fields, ∀ c ∈ f.toList, Utf8.isPlain c = true := by
    simp only [← List.all_eq_true]
    decide
  unfold Key.fault?
  cases k with
  | str s =>
    simp only [ite_eq_left_iff, reduceCtorEq, imp_false, Decidable.not_not, List.contains_iff_mem,
      Key.str.injEq]
    constructor
    · intro h
      exact ⟨_, h, (Utf8.lossy_eq_iff (hplain _ h)).mp rfl⟩
    · rintro ⟨f, hf, rfl⟩
      have hread : Utf8.lossy (bytes f) = f := (Utf8.lossy_eq_iff (hplain f hf)).mpr rfl
      rwa [hread]
  | _ => simp

end Script

namespace RootSpec

/-! ## The grammar -/

/-- A value is a text that may be left out. -/
inductive IsText : Value → Option String → Prop
  | absent : IsText .nil none
  | text (s : Bytes) : IsText (.str s) (some (Utf8.lossy s))

/-- A value is a truth value that may be left out. -/
inductive IsFlag : Value → Option Bool → Prop
  | absent : IsFlag .nil none
  | flag (b : Bool) : IsFlag (.bool b) (some b)

section

variable (m : Memory)

/-- A value is a list of texts that may be left out. -/
inductive IsTexts : Value → List String → Prop
  | absent : IsTexts .nil []
  | list {id : Nat} {strings : List Bytes} (h : (m.table id).Lists (strings.map .str)) :
      IsTexts (.table id) (strings.map Utf8.lossy)

/-- A value is a table with a rule: a list of toolsets that is not empty, and lists of texts. -/
inductive IsRule : Value → ToolsetRule → Prop
  | mk {id : Nat} {toolsets includePaths compilerOptions linkerOptions : List String}
      (htoolsets : IsTexts m (m.field id "toolsets") toolsets) (hne : toolsets ≠ [])
      (hincludePaths : IsTexts m (m.field id "include_paths") includePaths)
      (hcompilerOptions : IsTexts m (m.field id "compiler_options") compilerOptions)
      (hlinkerOptions : IsTexts m (m.field id "linker_options") linkerOptions) :
      IsRule (.table id) ⟨⟨toolsets⟩, includePaths.map .includePath ++
        compilerOptions.map .compilerOption ++ linkerOptions.map .linkerOption⟩

/-- A value is a list of rules that may be left out. -/
inductive IsRules : Value → List ToolsetRule → Prop
  | absent : IsRules .nil []
  | list {id : Nat} {vs : List Value} {rules : List ToolsetRule} (h : (m.table id).Lists vs)
      (hrules : List.Forall₂ (IsRule m) vs rules) : IsRules (.table id) rules

/-- All keys of a table are names of fields. -/
def KnowsKeys (id : Nat) : Prop := ∀ k ∈ m.keys id, ∃ f ∈ fields, k = .str (bytes f)

/-- Neither a table nor one of the tables with its rules has a metatable. -/
structure WithoutMetatables (id : Nat) : Prop where
  root : m.metatable id = none
  rules : ∀ list n rule, m.field id "rules" = .table list →
    (m.table list).getNat n = .table rule → m.metatable rule = none

theorem WithoutMetatables.of_tables {m : Memory} (h : m.tables.all (·.metatable.isNone) = true) (id : Nat) :
    WithoutMetatables m id := by
  have hnone : ∀ other, m.metatable other = none := by
    intro other
    rw [Memory.metatable, Memory.table, Array.getD_eq_getD_getElem?]
    cases hother : m.tables[other]? with
    | none => rfl
    | some t => exact Option.isNone_iff_eq_none.mp (Array.all_eq_true'.mp h t (Array.mem_of_getElem? hother))
  exact ⟨hnone id, fun _ _ rule _ _ => hnone rule⟩

/-- A table declares a specification. -/
structure IsRoot (id : Nat) (spec : RootSpec) : Prop where
  keys : KnowsKeys m id
  name : IsText (m.field id "name") spec.name
  cppStd : IsText (m.field id "cpp_std") spec.cppStd
  includePaths : IsTexts m (m.field id "include_paths") spec.includePaths
  compilerOptions : IsTexts m (m.field id "compiler_options") spec.compilerOptions
  linkerOptions : IsTexts m (m.field id "linker_options") spec.linkerOptions
  rules : IsRules m (m.field id "rules") spec.rules
  required : IsTexts m (m.field id "required") spec.required
  builtinRules : ∃ flag, IsFlag (m.field id "builtin_rules") flag ∧ spec.builtinRules = flag.getD true
  overrideFile : ∃ file, IsText (m.field id "override") file ∧
    spec.overrideFile = file.getD standardOverride

/-! ## The order of the checks -/

/-- Something that has to hold of a root, and what is reported if it does not. -/
structure Check where
  fault : FieldFault
  Holds : Prop

/-- A fault is that of the first check that fails. -/
inductive FirstFailed : List Check → FieldFault → Prop
  | here {c : Check} {checks : List Check} (h : ¬c.Holds) : FirstFailed (c :: checks) c.fault
  | next {c : Check} {checks : List Check} {fault : FieldFault} (h : c.Holds)
      (h' : FirstFailed checks fault) : FirstFailed (c :: checks) fault

/-- A field may be left out, and is a text otherwise. -/
def textCheck (id : Nat) (name : String) : Check :=
  ⟨⟨name, .notString⟩, ∃ text, IsText (m.field id name) text⟩

/-- A field may be left out, and is a list of texts otherwise. -/
def textsCheck (id : Nat) (name : String) : Check :=
  ⟨⟨name, .notStrings⟩, ∃ texts, IsTexts m (m.field id name) texts⟩

/-- What has to hold of a rule, in order. -/
def ruleChecks : Value → List Check
  | .table id =>
    [textsCheck m id "toolsets",
      ⟨⟨"rules", .noToolsets⟩, ¬IsTexts m (m.field id "toolsets") []⟩,
      textsCheck m id "include_paths",
      textsCheck m id "compiler_options",
      textsCheck m id "linker_options"]
  | _ => [⟨⟨"rules", .notRules⟩, False⟩]

/-- What has to hold of the rules of a root, rule by rule. -/
def rulesChecks : Value → List Check
  | .nil => []
  | .table list => (m.table list).items.flatMap (ruleChecks m)
  | _ => [⟨⟨"rules", .notRules⟩, False⟩]

/-- What has to hold of the fields of a root, in order. -/
def rootChecks (id : Nat) : List Check :=
  textCheck m id "name" :: textCheck m id "cpp_std" :: textsCheck m id "include_paths" ::
    textsCheck m id "compiler_options" :: textsCheck m id "linker_options" ::
    (rulesChecks m (m.field id "rules") ++
      [textsCheck m id "required",
        ⟨⟨"builtin_rules", .notBoolean⟩, ∃ flag, IsFlag (m.field id "builtin_rules") flag⟩,
        textCheck m id "override"])

end

namespace FirstFailed

variable {checks more : List Check} {fault : FieldFault}

theorem append (h : FirstFailed checks fault) (more : List Check) :
    FirstFailed (checks ++ more) fault := by
  induction h with
  | here h => exact .here h
  | next h _ ih => exact .next h ih

/-- Checks that hold are passed. -/
theorem behind (hchecks : ∀ c ∈ checks, c.Holds) (h : FirstFailed more fault) :
    FirstFailed (checks ++ more) fault := by
  induction checks with
  | nil => exact h
  | cons c checks ih =>
    obtain ⟨hc, hchecks⟩ := List.forall_mem_cons.mp hchecks
    exact .next hc (ih hchecks)

theorem exists_not_holds (h : FirstFailed checks fault) : ∃ c ∈ checks, ¬c.Holds := by
  induction h with
  | here h => exact ⟨_, List.mem_cons_self, h⟩
  | next _ _ ih =>
    obtain ⟨c, hc, hfails⟩ := ih
    exact ⟨c, List.mem_cons_of_mem _ hc, hfails⟩

theorem unique {other : FieldFault} (h : FirstFailed checks fault) (h' : FirstFailed checks other) :
    fault = other := by
  induction h with
  | here h =>
    cases h' with
    | here => rfl
    | next hc => exact absurd hc h
  | next h _ ih =>
    cases h' with
    | here hc => exact absurd h hc
    | next _ h' => exact ih h'

end FirstFailed

/-! ## A table declares one specification -/

theorem IsText.unique {v : Value} {a b : Option String} (h : IsText v a) (h' : IsText v b) : a = b := by
  cases h <;> cases h' <;> rfl

theorem IsFlag.unique {v : Value} {a b : Option Bool} (h : IsFlag v a) (h' : IsFlag v b) : a = b := by
  cases h <;> cases h' <;> rfl

variable {m : Memory}

theorem IsTexts.unique {v : Value} {a b : List String} (h : IsTexts m v a) (h' : IsTexts m v b) :
    a = b := by
  cases h with
  | absent =>
    cases h'
    rfl
  | @list id strings h =>
    cases h' with
    | @list _ others h' =>
      have hsame : strings = others :=
        List.map_injective_iff.mpr (fun _ _ => Value.str.inj) (Table.ListsFrom.unique h h')
      rw [hsame]

theorem IsRule.unique {v : Value} {a b : ToolsetRule} (h : IsRule m v a) (h' : IsRule m v b) : a = b := by
  cases h with
  | mk ht _ hi hc hl =>
    cases h' with
    | mk ht' _ hi' hc' hl' => rw [ht.unique ht', hi.unique hi', hc.unique hc', hl.unique hl']

theorem IsRules.unique {v : Value} {a b : List ToolsetRule} (h : IsRules m v a) (h' : IsRules m v b) :
    a = b := by
  cases h with
  | absent =>
    cases h'
    rfl
  | @list id vs _ h hrules =>
    cases h' with
    | @list _ ws _ h' hrules' =>
      obtain rfl : vs = ws := Table.ListsFrom.unique h h'
      have hunique : Relator.RightUnique (IsRule m) := fun _ _ _ h h' => h.unique h'
      exact List.right_unique_forall₂' hunique hrules hrules'

theorem IsRoot.unique {id : Nat} {spec other : RootSpec} (h : IsRoot m id spec)
    (h' : IsRoot m id other) : spec = other := by
  obtain ⟨flag, hflag, hspec⟩ := h.builtinRules
  obtain ⟨flag', hflag', hother⟩ := h'.builtinRules
  obtain ⟨file, hfile, hspec'⟩ := h.overrideFile
  obtain ⟨file', hfile', hother'⟩ := h'.overrideFile
  have hname := h.name.unique h'.name
  have hcppStd := h.cppStd.unique h'.cppStd
  have hincludePaths := h.includePaths.unique h'.includePaths
  have hcompilerOptions := h.compilerOptions.unique h'.compilerOptions
  have hlinkerOptions := h.linkerOptions.unique h'.linkerOptions
  have hrules := h.rules.unique h'.rules
  have hrequired := h.required.unique h'.required
  rw [hflag.unique hflag', ← hother] at hspec
  rw [hfile.unique hfile', ← hother'] at hspec'
  cases spec
  cases other
  simp only at *
  simp [*]

/-! ## A root passes its checks -/

theorem IsRule.holds {v : Value} {rule : ToolsetRule} (h : IsRule m v rule) :
    ∀ c ∈ ruleChecks m v, c.Holds := by
  cases h with
  | mk ht hne hi hc hl =>
    simp only [ruleChecks, List.forall_mem_cons]
    exact ⟨⟨_, ht⟩, fun hempty => hne (ht.unique hempty), ⟨_, hi⟩, ⟨_, hc⟩, ⟨_, hl⟩, by simp⟩

theorem IsRules.holds {v : Value} {rules : List ToolsetRule} (h : IsRules m v rules) :
    ∀ c ∈ rulesChecks m v, c.Holds := by
  cases h with
  | absent => simp [rulesChecks]
  | list h hrules =>
    intro c hc
    rw [rulesChecks, h.items_eq, List.mem_flatMap] at hc
    obtain ⟨v, hv, hc⟩ := hc
    obtain ⟨i, hi, rfl⟩ := List.getElem_of_mem hv
    exact (hrules.get hi (hrules.length_eq ▸ hi)).holds c hc

theorem IsRoot.holds {id : Nat} {spec : RootSpec} (h : IsRoot m id spec) :
    ∀ c ∈ rootChecks m id, c.Holds := by
  obtain ⟨flag, hflag, -⟩ := h.builtinRules
  obtain ⟨file, hfile, -⟩ := h.overrideFile
  simp only [rootChecks, List.forall_mem_append, List.forall_mem_cons]
  exact ⟨⟨_, h.name⟩, ⟨_, h.cppStd⟩, ⟨_, h.includePaths⟩, ⟨_, h.compilerOptions⟩, ⟨_, h.linkerOptions⟩,
    h.rules.holds, ⟨_, h.required⟩, ⟨flag, hflag⟩, ⟨file, hfile⟩, by simp⟩

end RootSpec

end BuildComposition
