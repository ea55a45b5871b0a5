import BuildComposition.Proofs.Compose.RootGrammar
import BuildComposition.Proofs.Simulation

/-!
# Reading root tables

The reader of root tables accepts exactly the roots and gives what they declare.  It looks at the values
in a fixed order, and what it reports is the first one that is wrong.

## Main definitions

* `Reading.Settles`: reading that looks at some checks in order
* `Parses`: a result is the right one for a table

## Main results

* `Reading.Settles.readTable`: the reader looks at the checks of a root in order
* `parses_ofTable`: the result for a table is the right one
-/

namespace BuildComposition.RootSpec

open Script

variable {m : Memory}

/-! ## Reading in the order of the checks -/

/-- On every machine with the entries of a memory, reading looks at some checks in order: if they hold it
gives something that satisfies a condition, and otherwise it stops at the first one that fails. -/
def Reading.Settles {σ α : Type} (m : Memory) (checks : List Check) (Q : α → Prop)
    (x : Reading σ α) : Prop :=
  ∃ result, Finds m x.run result ∧
    match result with
    | .ok a => (∀ c ∈ checks, c.Holds) ∧ Q a
    | .error fault => FirstFailed checks fault

namespace Reading.Settles

variable {σ α β : Type} {checks more : List Check} {Q : α → Prop} {R : β → Prop} {id : Nat}

theorem pure {a : α} (h : Q a) : Reading.Settles m [] Q (Pure.pure a : Reading σ α) :=
  ⟨.ok a, .pure _, by simp, h⟩

/-- Nothing that would come later is looked at. -/
theorem stop {c : Check} (h : ¬c.Holds) :
    Reading.Settles m (c :: checks) Q (stop c.fault.field c.fault.problem : Reading σ α) :=
  ⟨.error c.fault, .pure _, .here h⟩

theorem mono {P : α → Prop} {x : Reading σ α} (h : ∀ a, P a → Q a) (hx : Reading.Settles m checks P x) :
    Reading.Settles m checks Q x := by
  obtain ⟨result, hfinds, hresult⟩ := hx
  refine ⟨result, hfinds, ?_⟩
  cases result with
  | ok a => exact ⟨hresult.1, h a hresult.2⟩
  | error fault => exact hresult

theorem holding {c : Check} {x : Reading σ α} (hc : c.Holds) (hx : Reading.Settles m checks Q x) :
    Reading.Settles m (c :: checks) Q x := by
  obtain ⟨result, hfinds, hresult⟩ := hx
  refine ⟨result, hfinds, ?_⟩
  cases result with
  | ok a => exact ⟨List.forall_mem_cons.mpr ⟨hc, hresult.1⟩, hresult.2⟩
  | error fault => exact .next hc hresult

theorem bind {x : Reading σ α} {f : α → Reading σ β} (hx : Reading.Settles m checks Q x)
    (hf : ∀ a, Q a → Reading.Settles m more R (f a)) :
    Reading.Settles m (checks ++ more) R (x >>= f) := by
  obtain ⟨result, hfinds, hresult⟩ := hx
  cases result with
  | error fault =>
    refine ⟨.error fault, ?_, hresult.append more⟩
    rw [ExceptT.run_bind]
    exact hfinds.bind (.pure _)
  | ok a =>
    obtain ⟨hchecks, ha⟩ := hresult
    obtain ⟨result, hfinds', hresult⟩ := hf a ha
    refine ⟨result, ?_, ?_⟩
    · rw [ExceptT.run_bind]
      exact hfinds.bind hfinds'
    · cases result with
      | ok b => exact ⟨List.forall_mem_append.mpr ⟨hchecks, hresult.1⟩, hresult.2⟩
      | error fault => exact hresult.behind hchecks

theorem next {c : Check} {x : Reading σ α} {f : α → Reading σ β} (hx : Reading.Settles m [c] Q x)
    (hf : ∀ a, Q a → Reading.Settles m more R (f a)) : Reading.Settles m (c :: more) R (x >>= f) :=
  bind hx hf

/-- What is found has nothing to hold. -/
theorem found {x : Reading σ α} {a : α} (hx : Finds m x.run (.ok a)) {f : α → Reading σ β}
    (hf : Reading.Settles m checks R (f a)) : Reading.Settles m checks R (x >>= f) := by
  have hsettles : Reading.Settles m [] (fun b => b = a) x := ⟨.ok a, hx, by simp, rfl⟩
  refine bind hsettles fun b hb => ?_
  rw [hb]
  exact hf

theorem lift {x : Run σ α} {a : α} (hx : Finds m x a) {f : α → Reading σ β}
    (hf : Reading.Settles m checks R (f a)) :
    Reading.Settles m checks R (ExceptT.lift x >>= f) := by
  refine found ?_ hf
  rw [ExceptT.run_lift]
  exact hx.map _

end Reading.Settles

/-- The texts of some values are there if all of them are strings. -/
theorem mapM_lossyText?_eq_some_iff {vs : List Value} {texts : List String} :
    vs.mapM lossyText? = some texts ↔
      ∃ strings : List Bytes, vs = strings.map .str ∧ texts = strings.map Utf8.lossy := by
  induction vs generalizing texts with
  | nil => simp [eq_comm]
  | cons v vs ih =>
    simp only [List.mapM_cons, Option.bind_eq_bind, Option.bind_eq_some_iff, Option.pure_def,
      Option.some.injEq, ih]
    constructor
    · rintro ⟨text, hv, _, ⟨strings, rfl, rfl⟩, rfl⟩
      cases v with
      | str s =>
        cases hv
        exact ⟨s :: strings, rfl, rfl⟩
      | _ => cases hv
    · rintro ⟨strings, hvs, rfl⟩
      cases strings with
      | nil => cases hvs
      | cons s strings =>
        obtain ⟨rfl, rfl⟩ := List.cons.inj hvs
        exact ⟨_, rfl, _, ⟨strings, rfl, rfl⟩, rfl⟩

theorem isText_iff {v : Value} {text : Option String} : IsText v text ↔ optionalText v = some text := by
  constructor
  · rintro (_ | _) <;> rfl
  · intro h
    cases v with
    | nil =>
      cases h
      exact .absent
    | str s =>
      cases h
      exact .text s
    | _ => cases h

theorem isFlag_iff {v : Value} {flag : Option Bool} : IsFlag v flag ↔ optionalBool v = some flag := by
  constructor
  · rintro (_ | _) <;> rfl
  · intro h
    cases v with
    | nil =>
      cases h
      exact .absent
    | bool b =>
      cases h
      exact .flag b
    | _ => cases h

theorem isTexts_table_iff {list : Nat} {texts : List String} :
    IsTexts m (.table list) texts ↔ (m.table list).items.mapM lossyText? = some texts := by
  rw [mapM_lossyText?_eq_some_iff]
  constructor
  · rintro (_ | h)
    exact ⟨_, h.items_eq, rfl⟩
  · rintro ⟨strings, hitems, rfl⟩
    refine .list ?_
    rw [← hitems]
    exact (m.table list).lists_items

namespace Reading.Settles

variable {σ : Type} [Host σ] {id : Nat}

/-- The value of a field of a table without a metatable is what the table has. -/
theorem fieldValue? {β : Type} {checks : List Check} {R : β → Prop} (hid : m.metatable id = none)
    {name : String} {f : Option Value → Reading σ β}
    (hf : Reading.Settles m checks R (f (some (m.field id name)))) :
    Reading.Settles m checks R (fieldValue? invoke id name >>= f) := by
  refine found ?_ hf
  unfold RootSpec.fieldValue?
  rw [ExceptT.run_lift]
  exact .map _ (.tryCatch (.tryCatch (.map _ (.fieldOf hid _ _ _)) _) _)

theorem fieldAs {α : Type} (hid : m.metatable id = none) {name : String} {problem : FieldProblem}
    {read : Value → Option α} {P : α → Prop} (h : ∀ a, P a ↔ read (m.field id name) = some a) :
    Reading.Settles m [⟨⟨name, problem⟩, ∃ a, P a⟩] P (fieldAs invoke id name problem read : Reading σ α) := by
  unfold RootSpec.fieldAs
  refine fieldValue? hid ?_
  simp only [Option.bind_some]
  split
  · next a ha => exact holding ⟨a, (h a).mpr ha⟩ (pure ((h a).mpr ha))
  · next hnone =>
    refine stop (c := ⟨⟨name, problem⟩, _⟩) ?_
    rintro ⟨a, ha⟩
    rw [(h a).mp ha] at hnone
    cases hnone

theorem textsField (hid : m.metatable id = none) (name : String) :
    Reading.Settles m [textsCheck m id name] (IsTexts m (m.field id name))
      (textsField invoke id name : Reading σ (List String)) := by
  unfold RootSpec.textsField
  refine fieldValue? hid ?_
  split
  · next hfield =>
    have habsent : IsTexts m (m.field id name) [] := Option.some.inj hfield ▸ .absent
    exact holding ⟨_, habsent⟩ (pure habsent)
  · next list hfield =>
    refine lift (.items list) ?_
    split
    · next texts htexts =>
      have hlist : IsTexts m (m.field id name) texts :=
        Option.some.inj hfield ▸ isTexts_table_iff.mpr htexts
      exact holding ⟨_, hlist⟩ (pure hlist)
    · next hnone =>
      refine stop (c := textsCheck m id name) ?_
      rintro ⟨texts, htexts⟩
      rw [Option.some.inj hfield, isTexts_table_iff, hnone] at htexts
      cases htexts
  · next hnil htable =>
    refine stop (c := textsCheck m id name) ?_
    rintro ⟨texts, htexts⟩
    generalize m.field id name = v at hnil htable htexts
    cases htexts with
    | absent => exact hnil rfl
    | list => exact htable _ rfl

theorem readRule (hid : m.metatable id = none) :
    Reading.Settles m (ruleChecks m (.table id)) (IsRule m (.table id))
      (readRule invoke id : Reading σ ToolsetRule) := by
  unfold RootSpec.readRule
  refine next (textsField hid "toolsets") fun toolsets htoolsets => ?_
  split
  · next hempty =>
    rw [List.isEmpty_iff] at hempty
    subst hempty
    exact next (Q := fun _ => False)
      (stop (c := ⟨⟨"rules", .noToolsets⟩, _⟩) fun h => h htoolsets) fun _ h => h.elim
  · next hne =>
    rw [List.isEmpty_iff] at hne
    refine holding (fun hnil => hne (htoolsets.unique hnil)) ?_
    refine next (textsField hid "include_paths") fun _ hincludePaths => ?_
    refine next (textsField hid "compiler_options") fun _ hcompilerOptions => ?_
    refine next (textsField hid "linker_options") fun _ hlinkerOptions => ?_
    exact pure (.mk htoolsets hne hincludePaths hcompilerOptions hlinkerOptions)

theorem readRules {list : Nat}
    (hplain : ∀ n rule, (m.table list).getNat n = .table rule → m.metatable rule = none)
    (fuel n : Nat) (read : List ToolsetRule) :
    Reading.Settles m (((m.table list).itemsFrom fuel n).flatMap (ruleChecks m))
      (fun rules => ∃ more, rules = read.reverse ++ more ∧
        List.Forall₂ (IsRule m) ((m.table list).itemsFrom fuel n) more)
      (readRules invoke list fuel n read : Reading σ (List ToolsetRule)) := by
  induction fuel generalizing n read with
  | zero => exact pure ⟨[], by simp, .nil⟩
  | succ fuel ih =>
    have hpeek : Finds m (peek list (.int (Int64.ofNat n)) : Run σ Value)
        ((m.table list).getNat n) := .peek list _
    rw [RootSpec.readRules]
    refine lift hpeek ?_
    split
    · next hnil =>
      have hitems : (m.table list).itemsFrom (fuel + 1) n = [] := by
        rw [Table.itemsFrom, hnil]
      rw [hitems]
      exact pure ⟨[], by simp, .nil⟩
    · next id hid =>
      rw [Table.itemsFrom_succ hid (by simp), List.flatMap_cons]
      refine bind (readRule (hplain n id hid)) fun rule hrule => ?_
      refine mono ?_ (ih (n + 1) (rule :: read))
      rintro rules ⟨more, rfl, hmore⟩
      exact ⟨rule :: more, by simp, .cons hrule hmore⟩
    · next hnil htable =>
      rw [Table.itemsFrom_succ rfl hnil, List.flatMap_cons]
      have hchecks : ruleChecks m ((m.table list).getNat n) = [⟨⟨"rules", .notRules⟩, False⟩] := by
        generalize (m.table list).getNat n = v at hnil htable
        cases v with
        | table id => exact absurd rfl (htable id)
        | _ => rfl
      rw [hchecks]
      exact stop (c := ⟨⟨"rules", .notRules⟩, False⟩) not_false

/-- The rules of a root are read one after the other. -/
theorem rulesField (h : WithoutMetatables m id) :
    Reading.Settles m (rulesChecks m (m.field id "rules")) (IsRules m (m.field id "rules"))
      (rulesField invoke id : Reading σ (List ToolsetRule)) := by
  unfold RootSpec.rulesField
  refine fieldValue? h.root ?_
  split
  · next hfield =>
    rw [Option.some.inj hfield]
    exact pure .absent
  · next list hfield =>
    have hlist := Option.some.inj hfield
    rw [hlist]
    refine mono ?_ (readRules (h.rules list · · hlist) lastIndex 1 [])
    rintro rules ⟨more, rfl, hmore⟩
    exact .list (m.table list).lists_items hmore
  · next hnil htable =>
    have hchecks : rulesChecks m (m.field id "rules") = [⟨⟨"rules", .notRules⟩, False⟩] := by
      generalize m.field id "rules" = v at hnil htable
      cases v with
      | nil => exact absurd rfl hnil
      | table list => exact absurd rfl (htable list)
      | _ => rfl
    rw [hchecks]
    exact stop (c := ⟨⟨"rules", .notRules⟩, False⟩) not_false

/-- The fields of a root are looked at in order. -/
theorem readTable (h : WithoutMetatables m id) (hkeys : KnowsKeys m id) :
    Reading.Settles m (rootChecks m id) (IsRoot m id) (readTable invoke id : Reading σ RootSpec) := by
  have hid := h.root
  have hfaults : (m.keys id).findSome? (Key.fault? m.addresses) = none := by
    rw [List.findSome?_eq_none_iff]
    exact fun k hk => Key.fault?_eq_none_iff.mpr (hkeys k hk)
  unfold RootSpec.readTable
  refine lift (.load fun n hn => hn.keys_eq id) (lift (.load fun n hn => hn.addresses_eq) ?_)
  rw [hfaults]
  refine next (fieldAs hid fun _ => isText_iff) fun name hname => ?_
  refine next (fieldAs hid fun _ => isText_iff) fun cppStd hcppStd => ?_
  refine next (textsField hid _) fun includePaths hincludePaths => ?_
  refine next (textsField hid _) fun compilerOptions hcompilerOptions => ?_
  refine next (textsField hid _) fun linkerOptions hlinkerOptions => ?_
  refine bind (rulesField h) fun rules hrules => ?_
  refine next (textsField hid _) fun required hrequired => ?_
  refine next (fieldAs hid fun _ => isFlag_iff) fun flag hflag => ?_
  refine next (fieldAs hid fun _ => isText_iff) fun file hfile => ?_
  exact pure
    { keys := hkeys
      name := hname
      cppStd := hcppStd
      includePaths := hincludePaths
      compilerOptions := hcompilerOptions
      linkerOptions := hlinkerOptions
      rules := hrules
      required := hrequired
      builtinRules := ⟨flag, hflag, rfl⟩
      overrideFile := ⟨file, hfile, rfl⟩ }

/-- A key that is no name of a field is reported, whatever the fields are. -/
theorem readTable_of_not_knowsKeys (hkeys : ¬KnowsKeys m id) :
    ∃ k ∈ m.keys id, ∃ fault, k.fault? m.addresses = some fault ∧
      Reading.Settles m [⟨fault, False⟩] (IsRoot m id) (RootSpec.readTable invoke id : Reading σ RootSpec) := by
  cases hfault : (m.keys id).findSome? (Key.fault? m.addresses) with
  | none =>
    refine absurd (fun k hk => ?_) hkeys
    exact Key.fault?_eq_none_iff.mp (List.findSome?_eq_none_iff.mp hfault k hk)
  | some fault =>
    obtain ⟨k, hk, hkfault⟩ := List.exists_of_findSome?_eq_some hfault
    refine ⟨k, hk, fault, hkfault, ?_⟩
    unfold RootSpec.readTable
    refine lift (.load fun n hn => hn.keys_eq id) (lift (.load fun n hn => hn.addresses_eq) ?_)
    rw [hfault]
    exact stop (c := ⟨fault, False⟩) not_false

end Reading.Settles

/-! ## The result for a table -/

/-- Reading that looks at checks which every root passes accepts exactly the roots, and reports the first
check that fails. -/
theorem Reading.Settles.exists_result {σ : Type} {checks : List Check} {id : Nat}
    {x : Reading σ RootSpec} (hx : Reading.Settles m checks (IsRoot m id) x)
    (hholds : ∀ spec, IsRoot m id spec → ∀ c ∈ checks, c.Holds) :
    ∃ result, Finds m x.run result ∧ (∀ spec, result = .ok spec ↔ IsRoot m id spec) ∧
      ∀ fault, result = .error fault ↔ FirstFailed checks fault := by
  obtain ⟨result, hfinds, hresult⟩ := hx
  have hnone : ∀ fault, FirstFailed checks fault → ¬∀ c ∈ checks, c.Holds := by
    intro fault hfailed hall
    obtain ⟨c, hc, hfails⟩ := hfailed.exists_not_holds
    exact hfails (hall c hc)
  refine ⟨result, hfinds, ?_⟩
  cases result with
  | ok other =>
    obtain ⟨hall, hroot⟩ := hresult
    simp only [Except.ok.injEq, reduceCtorEq, false_iff]
    exact ⟨fun spec => ⟨fun heq => heq ▸ hroot, hroot.unique⟩, fun fault hfailed =>
      hnone fault hfailed hall⟩
  | error other =>
    simp only [Except.error.injEq, reduceCtorEq, false_iff]
    exact ⟨fun spec hspec => hnone other hresult (hholds spec hspec), fun fault =>
      ⟨fun heq => heq ▸ hresult, FirstFailed.unique hresult⟩⟩

/-- The reader accepts exactly the roots, and otherwise reports a field. -/
theorem exists_result_ofTable {σ : Type} [Host σ] {id : Nat} (h : WithoutMetatables m id) :
    ∃ result, Finds m (ofTable id : Run σ (Except FieldFault RootSpec)) result ∧
      ∀ spec, result = .ok spec ↔ IsRoot m id spec := by
  by_cases hkeys : KnowsKeys m id
  · obtain ⟨result, hfinds, haccepted, -⟩ :=
      (Reading.Settles.readTable (σ := σ) h hkeys).exists_result fun _ hspec => hspec.holds
    exact ⟨result, hfinds, haccepted⟩
  · obtain ⟨k, -, fault, -, hsettles⟩ := Reading.Settles.readTable_of_not_knowsKeys (σ := σ) hkeys
    obtain ⟨result, hfinds, haccepted, -⟩ :=
      hsettles.exists_result fun _ hspec => absurd hspec.keys hkeys
    exact ⟨result, hfinds, haccepted⟩

/-- A result is the right one for a table: what the table declares if it is a root, and otherwise a key
that is no name of a field or, if there is none, the first value that is wrong. -/
structure Parses (m : Memory) (id : Nat) (result : Except FieldFault RootSpec) : Prop where
  accepted_iff : ∀ spec, result = .ok spec ↔ IsRoot m id spec
  bad_key : ¬KnowsKeys m id →
    ∃ k ∈ m.keys id, ∃ fault, k.fault? m.addresses = some fault ∧ result = .error fault
  first_failed_iff : KnowsKeys m id → ∀ fault,
    result = .error fault ↔ FirstFailed (rootChecks m id) fault

/-- Whatever table without metatables is read, the reader comes to an end, with the right result. -/
theorem parses_ofTable {σ : Type} [Host σ] {m : Machine σ} {id : Nat}
    (h : WithoutMetatables m.memory id) :
    ∃ result t, (ofTable id : Run σ (Except FieldFault RootSpec)).run m = .ok result t ∧
      Parses m.memory id result := by
  by_cases hkeys : KnowsKeys m.memory id
  · obtain ⟨result, hfinds, haccepted, hfailed⟩ :=
      (Reading.Settles.readTable (σ := σ) h hkeys).exists_result fun _ hspec => hspec.holds
    obtain ⟨t, hrun, -⟩ := hfinds m (.refl _)
    exact ⟨result, t, hrun, haccepted, fun hbad => absurd hkeys hbad, fun _ => hfailed⟩
  · obtain ⟨k, hk, fault, hfault, hsettles⟩ :=
      Reading.Settles.readTable_of_not_knowsKeys (σ := σ) hkeys
    obtain ⟨result, hfinds, haccepted, hfailed⟩ :=
      hsettles.exists_result fun _ hspec => absurd hspec.keys hkeys
    obtain ⟨t, hrun, -⟩ := hfinds m (.refl _)
    have hreported : result = .error fault := (hfailed fault).mpr (.here not_false)
    exact ⟨result, t, hrun, haccepted, fun _ => ⟨k, hk, fault, hfault, hreported⟩,
      fun hknows => absurd hknows hkeys⟩

/-- A root with a rule that is well-formed, a rule without toolsets and a wrong reference. -/
def faultyRoot : Memory :=
  { Memory.empty with
    tables := #[.ofFields [("rules", .table 1), ("required", .table 2)],
      .ofEntries [(.ofNat 1, .table 3), (.ofNat 2, .table 4)],
      .ofEntries [(.ofNat 1, .ofString "a"), (.ofNat 2, .int 42)],
      .ofFields [("toolsets", .table 5)],
      .ofFields [("toolsets", .table 6), ("include_paths", .int 1)],
      .ofEntries [(.ofNat 1, .ofString "gcc")],
      .empty] }

/-- The second rule is reported for its toolsets, before its include paths and before the reference. -/
theorem parses_faultyRoot :
    WithoutMetatables faultyRoot 0 ∧
      ∃ result t, (ofTable 0 : Run Unit (Except FieldFault RootSpec)).run (.start faultyRoot ()) =
          .ok result t ∧
        Parses faultyRoot 0 result ∧ result = .error ⟨"rules", .noToolsets⟩ := by
  have hplain : WithoutMetatables faultyRoot 0 := .of_tables (by decide +kernel) 0
  have hresult : (outcomeOf (fun result _ => result)
      ((ofTable 0 : Run Unit (Except FieldFault RootSpec)).run (.start faultyRoot ()))).toOption =
        some (.error ⟨"rules", .noToolsets⟩) := by
    decide +kernel
  refine ⟨hplain, ?_⟩
  obtain ⟨result, t, hrun, hparses⟩ := parses_ofTable (m := .start faultyRoot ()) hplain
  rw [hrun] at hresult
  exact ⟨result, t, hrun, hparses, Option.some.inj hresult⟩

end BuildComposition.RootSpec
