import BuildComposition.Proofs.Compose.RootTables

/-!
# What becomes of the entries of a root table

A specification takes over what the reader looks at: the fields of the root and of its rules, and the items
of their lists.  All keys of the root itself are looked at, but neither are those of a rule nor what a list
has besides its items, so that such entries are lost.  A string that is stored anywhere else is in the
specification.

## Main definitions

* `RuleOf`, `ListOf`: the rule tables and the lists of a root
* `Stores`: a string is stored in a list or a rule of a root
* `NothingElse`: the rules and lists of a root have nothing but what is looked at
* `ReadAlike`: two memories agree in what is looked at
* `TakesOver`: what a specification takes over from a root
* `DropsNothing`: everything that is stored in a root is in its specification

## Main results

* `IsRoot.takesOver`: a specification takes over what is looked at
* `takesOver_ofTable`: the reader takes over what it looks at, or reports a field
* `not_dropsNothing_misspeltRoot`: what stands in a field of a rule that has a wrong name is lost
-/

namespace BuildComposition

/-- The string that a contribution adds. -/
def Contribution.value : Contribution → String
  | .includePath t | .compilerOption t | .linkerOption t => t

namespace RootSpec

open Script

/-! ## Entries -/

/-- The names of the fields that are lists of texts. -/
def listFields : List String := ["include_paths", "compiler_options", "linker_options", "required"]

/-- The names of the fields of a rule. -/
def ruleFields : List String := ["toolsets", "include_paths", "compiler_options", "linker_options"]

/-- The strings of a rule. -/
def ruleTexts (rule : ToolsetRule) : List String :=
  rule.condition.names ++ rule.contributions.map Contribution.value

/-- The strings of a specification that come from lists. -/
def texts (spec : RootSpec) : List String :=
  spec.includePaths ++ spec.compilerOptions ++ spec.linkerOptions ++ spec.required ++
    spec.rules.flatMap ruleTexts

section

variable (m : Memory) (id : Nat)

/-- A table is one of the rules of a root. -/
def RuleOf (rule : Nat) : Prop :=
  ∃ list, m.field id "rules" = .table list ∧ .table rule ∈ (m.table list).items

/-- A table is a list of texts of a root or of one of its rules. -/
inductive ListOf : Nat → Prop
  | ofRoot {f : String} {list : Nat} (hf : f ∈ listFields) (h : m.field id f = .table list) : ListOf list
  | ofRule {rule list : Nat} {f : String} (hrule : RuleOf m id rule) (hf : f ∈ ruleFields)
      (h : m.field rule f = .table list) : ListOf list

/-- A string is stored in a list or in a rule of a root, or in a table that a rule has. -/
inductive Stores : Bytes → Prop
  | inList {list : Nat} {k : Key} {s : Bytes} (hlist : ListOf m id list)
      (h : (m.table list).get k = .str s) : Stores s
  | inRules {list : Nat} {k : Key} {s : Bytes} (hlist : m.field id "rules" = .table list)
      (h : (m.table list).get k = .str s) : Stores s
  | inRule {rule : Nat} {k : Key} {s : Bytes} (hrule : RuleOf m id rule)
      (h : (m.table rule).get k = .str s) : Stores s
  | below {rule t : Nat} {k j : Key} {s : Bytes} (hrule : RuleOf m id rule)
      (ht : (m.table rule).get k = .table t) (h : (m.table t).get j = .str s) : Stores s

/-- All that a list has are its items. -/
def OnlyItems (list : Nat) : Prop :=
  ∀ k, (m.table list).get k ≠ .nil → ∃ i < (m.table list).items.length, k = .ofNat (1 + i)

/-- The rules of a root have nothing but the fields of rules, and the lists nothing but their items. -/
structure NothingElse : Prop where
  ruleKeys : ∀ rule, RuleOf m id rule → ∀ k, (m.table rule).get k ≠ .nil →
    ∃ f ∈ ruleFields, k = .str (bytes f)
  rules : ∀ list, m.field id "rules" = .table list → OnlyItems m list
  lists : ∀ list, ListOf m id list → OnlyItems m list

/-- Everything that is stored in a root is in its specification. -/
structure DropsNothing (spec : RootSpec) : Prop where
  keys : KnowsKeys m id
  nothingElse : NothingElse m id
  stored : ∀ s, Stores m id s → Utf8.lossy s ∈ spec.texts

/-- Another memory has the same in all places of a root that are looked at. -/
structure ReadAlike (n : Memory) : Prop where
  field_eq : ∀ f ∈ fields, n.field id f = m.field id f
  rules_eq : ∀ list, m.field id "rules" = .table list → (n.table list).items = (m.table list).items
  ruleField_eq : ∀ rule, RuleOf m id rule → ∀ f ∈ ruleFields, n.field rule f = m.field rule f
  items_eq : ∀ list, ListOf m id list → (n.table list).items = (m.table list).items

/-- What a specification takes over from a root. -/
structure TakesOver (spec : RootSpec) : Prop where
  /-- All keys of the root are names of fields, and all that it has is under them. -/
  keys : KnowsKeys m id ∧ ∀ k, (m.table id).get k ≠ .nil → ∃ f ∈ fields, k = .str (bytes f)
  /-- The items of the lists are strings, and they are all in the specification. -/
  listed : ∀ list, ListOf m id list → ∀ v ∈ (m.table list).items,
    ∃ s, v = .str s ∧ Utf8.lossy s ∈ spec.texts
  /-- The items of the rules are tables, one for each rule of the specification. -/
  ruled : ∀ list, m.field id "rules" = .table list →
    List.Forall₂ (IsRule m) (m.table list).items spec.rules
  /-- If there is nothing else, all strings that are stored are in the specification. -/
  stored : NothingElse m id → ∀ s, Stores m id s → Utf8.lossy s ∈ spec.texts
  /-- What else there is changes nothing. -/
  rest_ignored : ∀ n, ReadAlike m id n → KnowsKeys n id → IsRoot n id spec

end

variable {m : Memory} {id : Nat}

/-! ## What is taken over -/

theorem IsTexts.items {list : Nat} {texts : List String} (h : IsTexts m (.table list) texts) :
    ∀ v ∈ (m.table list).items, ∃ s, v = .str s ∧ Utf8.lossy s ∈ texts := by
  cases h with
  | list h =>
    rw [h.items_eq]
    intro v hv
    obtain ⟨s, hs, rfl⟩ := List.mem_map.mp hv
    exact ⟨s, rfl, List.mem_map_of_mem hs⟩

/-- A list of texts is one in every memory in which it has the same items. -/
theorem IsTexts.alike {n : Memory} {v : Value} {texts : List String} (h : IsTexts m v texts)
    (hitems : ∀ list, v = .table list → (n.table list).items = (m.table list).items) :
    IsTexts n v texts := by
  cases h with
  | absent => exact .absent
  | list h =>
    refine .list ?_
    rw [← h.items_eq, ← hitems _ rfl]
    exact Table.lists_items _

/-- The lists of a rule are all in the rule that is read. -/
theorem IsRule.listed {rule : Nat} {r : ToolsetRule} (h : IsRule m (.table rule) r) {f : String}
    (hf : f ∈ ruleFields) : ∃ texts, IsTexts m (m.field rule f) texts ∧ texts ⊆ ruleTexts r := by
  cases h with
  | @mk _ toolsets includePaths compilerOptions linkerOptions ht _ hi hc hl =>
    have hvalues : ruleTexts ⟨⟨toolsets⟩, includePaths.map .includePath ++
        compilerOptions.map .compilerOption ++ linkerOptions.map .linkerOption⟩ =
          toolsets ++ includePaths ++ compilerOptions ++ linkerOptions := by
      simp [ruleTexts, Contribution.value, Function.comp_def]
    rw [hvalues]
    simp only [ruleFields, List.mem_cons, List.not_mem_nil, or_false] at hf
    rcases hf with rfl | rfl | rfl | rfl
    · exact ⟨toolsets, ht, by simp [List.subset_def]; tauto⟩
    · exact ⟨includePaths, hi, by simp [List.subset_def]; tauto⟩
    · exact ⟨compilerOptions, hc, by simp [List.subset_def]; tauto⟩
    · exact ⟨linkerOptions, hl, by simp [List.subset_def]; tauto⟩

theorem IsRule.alike {n : Memory} {rule : Nat} {r : ToolsetRule} (h : IsRule m (.table rule) r)
    (hfield : ∀ f ∈ ruleFields, n.field rule f = m.field rule f)
    (hitems : ∀ f ∈ ruleFields, ∀ list, m.field rule f = .table list →
      (n.table list).items = (m.table list).items) :
    IsRule n (.table rule) r := by
  have halike : ∀ f ∈ ruleFields, ∀ texts, IsTexts m (m.field rule f) texts →
      IsTexts n (n.field rule f) texts := by
    intro f hf texts htexts
    rw [hfield f hf]
    exact htexts.alike (hitems f hf)
  cases h with
  | mk ht hne hi hc hl =>
    exact .mk (halike _ (by decide) _ ht) hne (halike _ (by decide) _ hi) (halike _ (by decide) _ hc)
      (halike _ (by decide) _ hl)

namespace IsRoot

variable {spec : RootSpec}

theorem ruled (h : IsRoot m id spec) {list : Nat} (hlist : m.field id "rules" = .table list) :
    List.Forall₂ (IsRule m) (m.table list).items spec.rules := by
  have hrules := h.rules
  rw [hlist] at hrules
  cases hrules with
  | list hlists hrules =>
    rw [hlists.items_eq]
    exact hrules

theorem exists_rule (h : IsRoot m id spec) {rule : Nat} (hrule : RuleOf m id rule) :
    ∃ r ∈ spec.rules, IsRule m (.table rule) r := by
  obtain ⟨list, hlist, hmem⟩ := hrule
  have hruled := h.ruled hlist
  obtain ⟨i, hi, hget⟩ := List.getElem_of_mem hmem
  have hi' : i < spec.rules.length := hruled.length_eq ▸ hi
  refine ⟨spec.rules[i], List.getElem_mem hi', ?_⟩
  rw [← hget]
  exact hruled.get hi hi'

/-- The lists of a root and of its rules are all in the specification. -/
theorem listed (h : IsRoot m id spec) {list : Nat} (hlist : ListOf m id list) :
    ∃ texts, IsTexts m (.table list) texts ∧ texts ⊆ spec.texts := by
  cases hlist with
  | @ofRoot f _ hf hfield =>
    rw [← hfield]
    simp only [listFields, List.mem_cons, List.not_mem_nil, or_false] at hf
    rcases hf with rfl | rfl | rfl | rfl
    · exact ⟨_, h.includePaths, by simp [texts, List.subset_def]; tauto⟩
    · exact ⟨_, h.compilerOptions, by simp [texts, List.subset_def]; tauto⟩
    · exact ⟨_, h.linkerOptions, by simp [texts, List.subset_def]; tauto⟩
    · exact ⟨_, h.required, by simp [texts, List.subset_def]; tauto⟩
  | @ofRule rule _ f hrule hf hfield =>
    obtain ⟨r, hr, hisRule⟩ := h.exists_rule hrule
    obtain ⟨texts, htexts, hsub⟩ := hisRule.listed hf
    rw [← hfield]
    refine ⟨texts, htexts, fun t ht => ?_⟩
    exact List.mem_append_right _ (List.mem_flatMap.mpr ⟨r, hr, hsub ht⟩)

theorem listed_items (h : IsRoot m id spec) {list : Nat} (hlist : ListOf m id list) :
    ∀ v ∈ (m.table list).items, ∃ s, v = .str s ∧ Utf8.lossy s ∈ spec.texts := by
  obtain ⟨texts, htexts, hsub⟩ := h.listed hlist
  intro v hv
  obtain ⟨s, hs, hmem⟩ := htexts.items v hv
  exact ⟨s, hs, hsub hmem⟩

end IsRoot

/-- What a list has that has only items is one of them. -/
theorem OnlyItems.mem_items {list : Nat} (h : OnlyItems m list) {k : Key}
    (hk : (m.table list).get k ≠ .nil) : (m.table list).get k ∈ (m.table list).items := by
  obtain ⟨i, hi, rfl⟩ := h k hk
  have hget : (m.table list).get (.ofNat (1 + i)) = _ := (m.table list).lists_items.getNat_eq i hi
  rw [hget]
  exact List.getElem_mem hi

namespace IsRoot

variable {spec : RootSpec}

/-- Where there is nothing else, every string that is stored is in the specification. -/
theorem stored (h : IsRoot m id spec) (helse : NothingElse m id) {s : Bytes} (hs : Stores m id s) :
    Utf8.lossy s ∈ spec.texts := by
  have hinList : ∀ {list : Nat} {k : Key} {s : Bytes}, ListOf m id list →
      (m.table list).get k = .str s → Utf8.lossy s ∈ spec.texts := by
    intro list k s hlist hget
    have hmem := (helse.lists list hlist).mem_items (k := k) (by rw [hget]; simp)
    obtain ⟨s', hs', hin⟩ := h.listed_items hlist _ hmem
    rw [hget, Value.str.injEq] at hs'
    exact hs' ▸ hin
  -- a field of a rule is a list
  have hfield : ∀ {rule : Nat} {k : Key}, RuleOf m id rule → (m.table rule).get k ≠ .nil →
      ∃ list, (m.table rule).get k = .table list ∧ ListOf m id list := by
    intro rule k hrule hk
    obtain ⟨f, hf, rfl⟩ := helse.ruleKeys rule hrule k hk
    obtain ⟨r, -, hisRule⟩ := h.exists_rule hrule
    obtain ⟨texts, htexts, -⟩ := hisRule.listed hf
    generalize hv : m.field rule f = v at htexts
    cases htexts with
    | absent => exact absurd hv hk
    | @list list => exact ⟨list, hv, .ofRule hrule hf hv⟩
  cases hs with
  | inList hlist hget => exact hinList hlist hget
  | @inRules list k _ hlist hget =>
    have hmem := (helse.rules list hlist).mem_items (k := k) (by rw [hget]; simp)
    obtain ⟨i, hi, hitem⟩ := List.getElem_of_mem hmem
    have hruled := h.ruled hlist
    have hrule := hruled.get hi (hruled.length_eq ▸ hi)
    rw [List.get_eq_getElem, hitem, hget] at hrule
    cases hrule
  | inRule hrule hget =>
    obtain ⟨list, hlist, -⟩ := hfield hrule (by rw [hget]; simp)
    rw [hget] at hlist
    cases hlist
  | below hrule ht hget =>
    obtain ⟨list, hlist, hlistOf⟩ := hfield hrule (by rw [ht]; simp)
    rw [ht, Value.table.injEq] at hlist
    exact hinList (hlist ▸ hlistOf) hget

/-- A table with the same in all places that are looked at declares the same. -/
theorem alike (h : IsRoot m id spec) {n : Memory} (halike : ReadAlike m id n) (hkeys : KnowsKeys n id) :
    IsRoot n id spec := by
  have htexts : ∀ f ∈ listFields, f ∈ fields → ∀ texts, IsTexts m (m.field id f) texts →
      IsTexts n (n.field id f) texts := by
    intro f hf hfields texts h
    rw [halike.field_eq f hfields]
    exact h.alike fun list hlist => halike.items_eq list (.ofRoot hf hlist)
  have hrules : ∀ rules, IsRules m (m.field id "rules") rules → IsRules n (n.field id "rules") rules := by
    intro rules h
    rw [halike.field_eq "rules" (by decide)]
    generalize hfield : m.field id "rules" = v at h
    cases h with
    | absent => exact .absent
    | @list list vs _ hlists hall =>
      have hlists' : (n.table list).Lists vs := by
        rw [← hlists.items_eq, ← halike.rules_eq list hfield]
        exact Table.lists_items _
      refine .list hlists' ?_
      have hmem := (List.forall₂_and_left (p := (· ∈ vs)) vs rules).mpr ⟨fun _ hv => hv, hall⟩
      refine hmem.imp fun v r ⟨hv, hr⟩ => ?_
      obtain ⟨rule, rfl⟩ : ∃ rule, v = .table rule := by
        cases hr
        exact ⟨_, rfl⟩
      have hrule : RuleOf m id rule := ⟨list, hfield, hlists.items_eq ▸ hv⟩
      exact hr.alike (halike.ruleField_eq rule hrule) fun f hf list hlist =>
        halike.items_eq list (.ofRule hrule hf hlist)
  obtain ⟨flag, hflag, hbuiltinRules⟩ := h.builtinRules
  obtain ⟨file, hfile, hoverrideFile⟩ := h.overrideFile
  exact
    { keys := hkeys
      name := halike.field_eq "name" (by decide) ▸ h.name
      cppStd := halike.field_eq "cpp_std" (by decide) ▸ h.cppStd
      includePaths := htexts _ (by decide) (by decide) _ h.includePaths
      compilerOptions := htexts _ (by decide) (by decide) _ h.compilerOptions
      linkerOptions := htexts _ (by decide) (by decide) _ h.linkerOptions
      rules := hrules _ h.rules
      required := htexts _ (by decide) (by decide) _ h.required
      builtinRules := ⟨flag, halike.field_eq "builtin_rules" (by decide) ▸ hflag, hbuiltinRules⟩
      overrideFile := ⟨file, halike.field_eq "override" (by decide) ▸ hfile, hoverrideFile⟩ }

theorem takesOver (h : IsRoot m id spec) : TakesOver m id spec where
  keys := ⟨h.keys, fun k hk => h.keys k (Table.mem_keys hk)⟩
  listed _ hlist := h.listed_items hlist
  ruled _ hlist := h.ruled hlist
  stored helse _ hs := h.stored helse hs
  rest_ignored _ halike hkeys := h.alike halike hkeys

end IsRoot

/-- A specification that is read takes over what is looked at, and a table that is no root is rejected with
the report of a field. -/
theorem takesOver_ofTable {σ : Type} [Host σ] {m : Machine σ} {id : Nat}
    (h : WithoutMetatables m.memory id) :
    ∃ result t, (ofTable id : Run σ (Except FieldFault RootSpec)).run m = .ok result t ∧
      (∀ spec, result = .ok spec → TakesOver m.memory id spec) ∧
      ((∀ spec, ¬IsRoot m.memory id spec) → ∃ fault, result = .error fault) := by
  obtain ⟨result, hfinds, haccepted⟩ := exists_result_ofTable (σ := σ) h
  obtain ⟨t, hrun, -⟩ := hfinds m (.refl _)
  refine ⟨result, t, hrun, fun spec hspec => ((haccepted spec).mp hspec).takesOver, fun hnone => ?_⟩
  cases result with
  | ok spec => exact absurd ((haccepted spec).mp rfl) (hnone spec)
  | error fault => exact ⟨fault, rfl⟩

/-- A root with a rule that has misspelt the field of its compiler options. -/
def misspeltRoot : Memory :=
  { Memory.empty with
    tables := #[.ofFields [("rules", .table 1)],
      .ofEntries [(.ofNat 1, .table 2)],
      .ofFields [("toolsets", .table 3), ("compile_options", .table 4)],
      .ofEntries [(.ofNat 1, .ofString "gcc")],
      .ofEntries [(.ofNat 1, .ofString "-g")]] }

theorem withoutMetatables_misspeltRoot : WithoutMetatables misspeltRoot 0 :=
  .of_tables (by decide +kernel) 0

theorem run_misspeltRoot :
    (outcomeOf (fun result _ => result)
      ((ofTable 0 : Run Unit (Except FieldFault RootSpec)).run (.start misspeltRoot ()))).toOption =
        some (.ok { RootSpec.empty with rules := [⟨⟨["gcc"]⟩, []⟩] }) := by
  decide +kernel

/-- The toolset is in the specification. -/
theorem takesOver_misspeltRoot :
    WithoutMetatables misspeltRoot 0 ∧
      ∃ spec t, (ofTable 0 : Run Unit (Except FieldFault RootSpec)).run (.start misspeltRoot ()) =
          .ok (.ok spec) t ∧
        TakesOver misspeltRoot 0 spec ∧ spec.texts = ["gcc"] := by
  refine ⟨withoutMetatables_misspeltRoot, ?_⟩
  obtain ⟨result, t, hrun, htakes, -⟩ :=
    takesOver_ofTable (m := .start misspeltRoot ()) withoutMetatables_misspeltRoot
  have hresult := run_misspeltRoot
  rw [hrun] at hresult
  obtain rfl := Option.some.inj hresult
  exact ⟨_, t, hrun, htakes _ rfl, rfl⟩

/-- The compiler option is not. -/
theorem not_dropsNothing_misspeltRoot :
    ∃ spec t, (ofTable 0 : Run Unit (Except FieldFault RootSpec)).run (.start misspeltRoot ()) =
        .ok (.ok spec) t ∧ ¬DropsNothing misspeltRoot 0 spec := by
  obtain ⟨result, hfinds, -⟩ := exists_result_ofTable (σ := Unit) withoutMetatables_misspeltRoot
  obtain ⟨t, hrun, -⟩ := hfinds (.start misspeltRoot ()) (.refl _)
  have hresult := run_misspeltRoot
  rw [hrun] at hresult
  obtain rfl := Option.some.inj hresult
  refine ⟨_, t, hrun, fun hdrops => ?_⟩
  have hrule : RuleOf misspeltRoot 0 2 := by
    have hitems : (misspeltRoot.table 1).items = [.table 2] := by
      refine Table.Lists.items_eq ⟨by decide, fun i hi => ?_, by simp, fun _ => ?_⟩
      · cases i with
        | zero => rfl
        | succ i => simp at hi
      · rfl
    exact ⟨1, by rfl, by simp [hitems]⟩
  have hstored : Stores misspeltRoot 0 (bytes "-g") := by
    refine .below hrule (k := .str (bytes "compile_options")) (t := 4) (j := .ofNat 1) ?_ ?_
    · rfl
    · rfl
  have hmem := hdrops.stored _ hstored
  revert hmem
  decide

end RootSpec

end BuildComposition
