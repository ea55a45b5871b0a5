import BuildComposition.Proofs.Compose.SettingsOrder

/-!
# Histories of the settings

A run changes the global settings by single writes, by the built-in defaults, which write three settings at
once, and by the rules for a toolset, which make one write for each contribution.  After any history of such
steps the settings are known one by one from the steps: a list holds what was added to it in order, a single
setting is what it was made last, and brief output is on exactly if some step has asked for it.

Rules are applied in a loop that counts the contributions.  Whether a rule takes part depends on this rule and
the toolset alone, so that a list of rules can be applied in parts.

## Main definitions

* `SettingsStep`, `SettingsStep.run`: the steps, and the session after one
* `SettingsStep.added`, `SettingsStep.made?`, `SettingsStep.asksForBrief`: what a step does to each setting
* `Config.Holds`: settings that are what a history has made them
* `Session.AppliesInTurn`: what applying rules comes to

## Main results

* `Config.holds_applyAll`: writes from several steps make the settings of these steps
* `foldl_countRule`: what the loop over rules comes to, from any count on
-/

namespace BuildComposition

/-! ## Rules one by one -/

theorem ToolsetPredicate.holds_iff {p : ToolsetPredicate} {t : Toolset} :
    p.holds t = true ↔ t.name ∈ p.names := List.contains_iff_mem

/-- What a rule contributes for a toolset: everything if it names the toolset, and nothing otherwise. -/
def ToolsetRule.contributionsFor (r : ToolsetRule) (t : Toolset) : List Contribution :=
  if t.name ∈ r.condition.names then r.contributions else []

theorem contributed_eq_flatMap (rules : List ToolsetRule) (t : Toolset) :
    contributed rules t = rules.flatMap (·.contributionsFor t) := by
  induction rules with
  | nil => rfl
  | cons r rules ih =>
    rw [List.flatMap_cons, ← ih, contributed, firing, List.filter_cons,
      ToolsetRule.contributionsFor]
    by_cases h : t.name ∈ r.condition.names
    · rw [if_pos (ToolsetPredicate.holds_iff.mpr h), if_pos h, List.flatMap_cons]
      rfl
    · rw [if_neg (mt ToolsetPredicate.holds_iff.mp h), if_neg h, List.nil_append]
      rfl

namespace Session

/-- Applies a rule, if it is one for the toolset. -/
def applyRule (t : Toolset) (s : Session) (r : ToolsetRule) : Session :=
  if r.condition.holds t then
    (s.noteFired t r.condition).writeAll (r.contributions.map (·.change))
  else s

theorem foldl_countContribution (cs : List Contribution) (n : Nat) (s : Session) :
    cs.foldl countContribution (n, s) = (n + cs.length, s.writeAll (cs.map (·.change))) := by
  induction cs generalizing n s with
  | nil => rfl
  | cons c cs ih =>
    rw [List.foldl_cons, countContribution, ih, List.length_cons, Nat.add_assoc, Nat.add_comm 1]
    rfl

theorem countRule_eq (t : Toolset) (n : Nat) (s : Session) (r : ToolsetRule) :
    countRule t (n, s) r = (n + (r.contributionsFor t).length, applyRule t s r) := by
  unfold countRule applyRule ToolsetRule.contributionsFor
  by_cases h : t.name ∈ r.condition.names
  · rw [if_pos (ToolsetPredicate.holds_iff.mpr h), if_pos (ToolsetPredicate.holds_iff.mpr h),
      if_pos h, foldl_countContribution]
  · rw [if_neg (mt ToolsetPredicate.holds_iff.mp h), if_neg (mt ToolsetPredicate.holds_iff.mp h),
      if_neg h]
    rfl

/-- The loop over rules adds the number of all contributions to the count, and applies rule by rule. -/
theorem foldl_countRule (t : Toolset) (rules : List ToolsetRule) (n : Nat) (s : Session) :
    rules.foldl (countRule t) (n, s) =
      (n + (rules.flatMap (·.contributionsFor t)).length, rules.foldl (applyRule t) s) := by
  induction rules generalizing n s with
  | nil => rfl
  | cons r rules ih =>
    rw [List.foldl_cons, countRule_eq, ih, List.flatMap_cons, List.length_append, Nat.add_assoc]
    rfl

theorem countRules_eq (s : Session) (rules : List ToolsetRule) (t : Toolset) :
    s.countRules rules t =
      ((rules.flatMap (·.contributionsFor t)).length, rules.foldl (applyRule t) s) := by
  rw [countRules, foldl_countRule, Nat.zero_add]

/-- The rules of a run are applied by the loop, and what it has counted is noted. -/
theorem applyRules_eq_note (s : Session) (rules : List ToolsetRule) (t : Toolset) :
    s.applyRules rules t =
      (s.countRules rules t).2.note (.rulesApplied (s.countRules rules t).1) := by
  rw [countRules_eq, ← contributed_eq_flatMap, Session.applyRules, firing, List.foldl_filter]
  rfl

theorem config_applyRules (s : Session) (rules : List ToolsetRule) (t : Toolset) :
    (s.applyRules rules t).config =
      s.config.applyAll ((rules.flatMap (·.contributionsFor t)).map (·.change)) := by
  rw [← contributed_eq_flatMap]
  exact config_foldl_fired (firing rules t) t s

end Session

/-! ## Steps -/

/-- A step that changes the global settings. -/
inductive SettingsStep where
  | write (change : Change)
  | defaults (values : BuiltinDefaults)
  | rules (declared : List ToolsetRule) (toolset : Toolset)
  deriving DecidableEq, Repr

/-- What built-in defaults make a single setting. -/
def SingleSetting.default? (values : BuiltinDefaults) :
    (setting : SingleSetting) → Option setting.Value
  | cppStd => none
  | runtimeMode => some values.runtimeMode
  | placement => some values.placement

namespace SettingsStep

/-- The session after a step. -/
def run (s : Session) : SettingsStep → Session
  | write change => s.write change
  | defaults values => s.writeAll values.changes
  | rules declared toolset => s.applyRules declared toolset

/-- The writes that a step makes. -/
def changes : SettingsStep → List Change
  | write change => [change]
  | defaults values => values.changes
  | rules declared toolset => (declared.flatMap (·.contributionsFor toolset)).map (·.change)

/-- What a step adds to a list: contributions come rule by rule, as far as the rules name the toolset. -/
def added (setting : ListSetting) : SettingsStep → List String
  | write change => (setting.value? change).toList
  | defaults _ => []
  | rules declared toolset => declared.flatMap fun r =>
      if toolset.name ∈ r.condition.names then r.contributions.filterMap setting.contributed? else []

/-- What a step makes a single setting. -/
def made? (setting : SingleSetting) : SettingsStep → Option setting.Value
  | write change => setting.value? change
  | defaults values => setting.default? values
  | rules _ _ => none

/-- The step asks for brief output. -/
def asksForBrief : SettingsStep → Bool
  | write change => change = .showBrief
  | defaults _ => true
  | rules _ _ => false

theorem config_run (s : Session) (step : SettingsStep) :
    (step.run s).config = s.config.applyAll step.changes := by
  cases step with
  | write change => rfl
  | defaults values => exact Session.config_writeAll ..
  | rules declared toolset => exact Session.config_applyRules ..

theorem filterMap_value?_changes (setting : ListSetting) (step : SettingsStep) :
    step.changes.filterMap setting.value? = step.added setting := by
  cases step with
  | write change => cases h : setting.value? change <;> simp [changes, added, h]
  | defaults values => exact setting.filterMap_value?_defaults values .builtin
  | rules declared toolset =>
    rw [changes, setting.filterMap_value?_contributions, List.filterMap_flatMap]
    -- whether a rule takes part does not depend on the list
    congr 1
    funext r
    rw [ToolsetRule.contributionsFor, apply_ite (List.filterMap setting.contributed?),
      List.filterMap_nil]

theorem filterMap_value?_toList (setting : SingleSetting) (step : SettingsStep) :
    (step.changes.filterMap setting.value?) = (step.made? setting).toList := by
  cases step with
  | write change => cases h : setting.value? change <;> simp [changes, made?, h]
  | defaults values => cases setting <;> rfl
  | rules declared toolset =>
    rw [changes, made?, Option.toList_none, List.filterMap_map, List.filterMap_eq_nil_iff]
    intro c _
    cases setting <;> cases c <;> rfl

theorem showBrief_mem_changes {step : SettingsStep} :
    .showBrief ∈ step.changes ↔ step.asksForBrief = true := by
  cases step with
  | write change => simp [changes, asksForBrief, eq_comm]
  | defaults values => simp [changes, asksForBrief, BuiltinDefaults.changes]
  | rules declared toolset =>
    simp only [changes, asksForBrief, List.mem_map, Bool.false_eq_true, iff_false]
    rintro ⟨c, -, hc⟩
    cases c <;> cases hc

end SettingsStep

/-- The session after a history of steps. -/
def Session.afterSteps (s : Session) (history : List SettingsStep) : Session :=
  history.foldl SettingsStep.run s

theorem Session.config_afterSteps (s : Session) (history : List SettingsStep) :
    (s.afterSteps history).config = s.config.applyAll (history.flatMap (·.changes)) := by
  induction history generalizing s with
  | nil => rfl
  | cons step history ih =>
    rw [afterSteps, List.foldl_cons, ← afterSteps, ih, SettingsStep.config_run,
      List.flatMap_cons, Config.applyAll_append]

/-! ## The settings of a history -/

/-- Settings that are what a history has made them.  A list holds what the steps have added to it, in order.
A single setting is what it was made last, if it was made anything.  Brief output is on exactly if some step
has asked for it. -/
structure Config.Holds (c : Config) (history : List SettingsStep) : Prop where
  values_eq : ∀ setting : ListSetting, setting.values c = history.flatMap (·.added setting)
  value_eq : ∀ setting : SingleSetting,
    setting.value c = (history.filterMap (·.made? setting)).getLast?
  showBrief_iff : c.showBrief = true ↔ ∃ step ∈ history, step.asksForBrief = true

/-- The writes of a history make its settings. -/
theorem Config.holds_applyAll (history : List SettingsStep) :
    (Config.empty.applyAll (history.flatMap (·.changes))).Holds history where
  values_eq setting := by
    rw [setting.values_applyAll, ListSetting.values_empty, List.nil_append, List.filterMap_flatMap]
    congr 1
    funext step
    exact step.filterMap_value?_changes setting
  value_eq setting := by
    have hmade : (history.flatMap (·.changes)).filterMap setting.value? =
        history.filterMap (·.made? setting) := by
      rw [List.filterMap_flatMap, List.filterMap_eq_flatMap_toList]
      congr 1
      funext step
      exact step.filterMap_value?_toList setting
    rw [setting.value_applyAll, SingleSetting.value_empty, Option.or_none, hmade]
  showBrief_iff := by
    have hempty : ¬Config.empty.showBrief = true := by decide
    rw [showBrief_applyAll, or_iff_left hempty, List.mem_flatMap]
    simp only [SettingsStep.showBrief_mem_changes]

/-- In every session the settings are those of the writes that it has noted. -/
theorem Session.holds_journal (s : Session) :
    s.config.Holds ((s.journal.filterMap Event.change?).map .write) := by
  have hchanges : ((s.journal.filterMap Event.change?).map SettingsStep.write).flatMap (·.changes) =
      s.journal.filterMap Event.change? := by
    rw [List.flatMap_map]
    exact List.flatMap_singleton' (s.journal.filterMap Event.change?)
  have hholds := Config.holds_applyAll ((s.journal.filterMap Event.change?).map SettingsStep.write)
  rwa [hchanges, ← s.settings] at hholds

/-- What applying rules to a session comes to.  The run notes the number that the loop over the rules
returns.  The loop makes one write for each contribution of each rule that names the toolset, rule by rule,
and returns how many these are; a second list of rules goes on where the first one ends; and rules that do
not name the toolset leave the session as it is. -/
structure Session.AppliesInTurn (s : Session) (rules more : List ToolsetRule) (t : Toolset) : Prop where
  noted : s.applyRules rules t =
    (s.countRules rules t).2.note (.rulesApplied (s.countRules rules t).1)
  config_eq : (s.countRules rules t).2.config =
    (s.afterSteps ((rules.flatMap (·.contributionsFor t)).map fun c => .write c.change)).config
  count_eq : (s.countRules rules t).1 = (rules.flatMap (·.contributionsFor t)).length
  append_eq : s.countRules (rules ++ more) t =
    ((s.countRules rules t).1 + ((s.countRules rules t).2.countRules more t).1,
      ((s.countRules rules t).2.countRules more t).2)
  unnamed : (∀ r ∈ rules, t.name ∉ r.condition.names) → s.countRules rules t = (0, s)

theorem Session.appliesInTurn (s : Session) (rules more : List ToolsetRule) (t : Toolset) :
    s.AppliesInTurn rules more t where
  noted := s.applyRules_eq_note rules t
  config_eq := by
    have hnoted : (s.applyRules rules t).config = (s.countRules rules t).2.config := by
      rw [applyRules_eq_note]
      rfl
    rw [← hnoted, config_applyRules, config_afterSteps, List.flatMap_map]
    congr 1
    exact List.map_eq_flatMap
  count_eq := by rw [countRules_eq]
  append_eq := by
    simp only [countRules_eq, List.flatMap_append, List.length_append, List.foldl_append]
  unnamed h := by
    induction rules with
    | nil => rfl
    | cons r rules ih =>
      have hr : countRule t (0, s) r = (0, s) :=
        if_neg (mt ToolsetPredicate.holds_iff.mp (h r List.mem_cons_self))
      rw [countRules, List.foldl_cons, hr]
      exact ih fun r' hr' => h r' (List.mem_cons_of_mem r hr')

/-- After every history of steps, and in every session that came about in some other way, the settings are
known one by one from what was written to each; and rules are steps that stand for the writes of their
contributions. -/
theorem settings_known_by_field :
    (∀ history : List SettingsStep, (Session.start.afterSteps history).config.Holds history) ∧
    (∀ s : Session, s.config.Holds ((s.journal.filterMap Event.change?).map .write)) ∧
    ∀ (s : Session) (rules more : List ToolsetRule) (t : Toolset), s.AppliesInTurn rules more t := by
  refine ⟨fun history => ?_, Session.holds_journal, Session.appliesInTurn⟩
  rw [Session.config_afterSteps]
  exact Config.holds_applyAll history

/-- Rules that overlap, and one that names the toolset twice, all take part once, and later values of single
settings replace those of the defaults. -/
example : (Session.start.afterSteps
    [.rules [⟨⟨["gcc", "gcc"]⟩, [.includePath "p"]⟩, ⟨⟨["clang"]⟩, [.includePath "q"]⟩,
        ⟨⟨["clang", "gcc"]⟩, [.compilerOption "-a", .includePath "p"]⟩] ⟨"gcc"⟩,
      .defaults .standard, .write (.runtimeMode .debug)]).config =
    { Config.empty with
      includePaths := ["p", "p"], compilerOptions := ["-a"], runtimeMode := some .debug,
      placement := some (.runtimeSubdir "target"), showBrief := true } := by
  decide

end BuildComposition
