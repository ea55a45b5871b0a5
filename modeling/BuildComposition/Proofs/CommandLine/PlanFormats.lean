import BuildComposition.CommandLine
import BuildComposition.Proofs.CommandLine.PlanReports
import BuildComposition.Proofs.Compose.UnitForest
import BuildComposition.Proofs.Encoding.PlanText
import BuildComposition.Proofs.Text.Encoded

/-!
# The two formats of a plan

The command `plan` composes before it prints anything, so that both formats are about the same plan, or
there is none and the command fails in both.  The plan is read again from the octets of the JSON format, and
the text tells of this plan.

Scripts print to the standard output of the command.  What they print comes before the plan, but for what they
leave in the buffer of a line; this comes when the command ends.

## Main definitions

* `CommandLine.plan?`: the plan that the command is about
* `CommandLine.scriptOutput`: what the scripts of a run print
* `Plan.ofOctets?`: the plan that octets are the JSON text of
* `CommandLine.FormatsAgree`: what is known of both formats, with some output around the plan

## Main results

* `fitsWords_of_plan`: no unit is too deep to be read again
* `CommandLine.executePlan_of_none`, `CommandLine.executePlan_of_some`: what the command prints
-/

namespace BuildComposition

/-- The units of a run are not so deep that their depths could not be read again. -/
theorem fitsWords_of_plan {tree : FileTree} {root : Root} {toolset : Toolset} {layout : Layout}
    {options : Options} {plan : Plan} (hdepth : options.maxDepth ≤ Word.count)
    (h : (compose tree root toolset options layout).1 = .ok plan) : plan.FitsWords := by
  obtain ⟨spec, -, -, hyields⟩ := yields_of_plan h
  exact fun u hu => Nat.lt_of_lt_of_le (hyields.unit_cases u hu).2.1 hdepth

/-- The plan that octets are the JSON text of. -/
def Plan.ofOctets? (octets : Bytes) : Option Plan := do
  let text ← Utf8.decode? octets
  let j ← Json.parse? text
  ofJson? j

namespace CommandLine

/-- The plan that the command is about: the one that a run with the standard options gives for the root in
the file, if there is one. -/
def plan? (tree : FileTree) (file toolset : String) (layout : Layout := .standard) : Option Plan :=
  match Root.ofFile tree (Path.ofString file) with
  | .error _ => none
  | .ok root => (compose tree root ⟨toolset⟩ .standard layout).1.toOption

/-- What the scripts of the run print. -/
def scriptOutput (tree : FileTree) (file toolset : String) (layout : Layout := .standard) :
    Script.Output :=
  match Root.ofFile tree (Path.ofString file) with
  | .error _ => .empty
  | .ok root => (composition tree root ⟨toolset⟩ .standard layout).2.1.printed

/-- What the command prints about a plan. -/
def Format.shown : Format → Plan → String
  | text, plan => plan.report
  | json, plan => plan.json.indented ++ "\n"

section

variable {tree : FileTree} {file toolset : String} {layout : Layout}

theorem plan?_eq_some_iff {plan : Plan} : plan? tree file toolset layout = some plan ↔
    ∃ root, Root.ofFile tree (Path.ofString file) = .ok root ∧
      (compose tree root ⟨toolset⟩ .standard layout).1 = .ok plan := by
  unfold plan?
  cases Root.ofFile tree (Path.ofString file) with
  | error e => simp
  | ok root =>
    dsimp only
    cases hresult : (compose tree root ⟨toolset⟩ .standard layout).1 with
    | error e => simp [Except.toOption, hresult]
    | ok other => simp [Except.toOption, hresult]

theorem fitsWords_of_plan? {plan : Plan} (h : plan? tree file toolset layout = some plan) :
    plan.FitsWords := by
  obtain ⟨root, -, hplan⟩ := plan?_eq_some_iff.mp h
  exact fitsWords_of_plan (by decide) hplan

theorem executePlan_of_none (h : plan? tree file toolset layout = none) (filter : LogFilter)
    (format : Format) : (executePlan tree filter file toolset format layout).code = 1 ∧
      (executePlan tree filter file toolset format layout).octets =
        (scriptOutput tree file toolset layout).octets := by
  unfold plan? compose at h
  unfold executePlan scriptOutput
  dsimp only at h ⊢
  cases hroot : Root.ofFile tree (Path.ofString file) with
  | error e => exact ⟨rfl, rfl⟩
  | ok root =>
    rw [hroot] at h
    dsimp only at h ⊢
    cases hresult : (composition tree root ⟨toolset⟩ .standard layout).1 with
    | error e => exact ⟨rfl, congrArg (· ++ _) (List.append_nil _)⟩
    | ok plan =>
      rw [hresult] at h
      cases h

theorem executePlan_of_some {plan : Plan} (h : plan? tree file toolset layout = some plan)
    (filter : LogFilter) (format : Format) :
    (executePlan tree filter file toolset format layout).code = 0 ∧
      (executePlan tree filter file toolset format layout).octets =
        (scriptOutput tree file toolset layout).before ++ Utf8.encode (format.shown plan) ++
          (scriptOutput tree file toolset layout).pending := by
  obtain ⟨root, hroot, hplan⟩ := plan?_eq_some_iff.mp h
  have hresult : (composition tree root ⟨toolset⟩ .standard layout).1 = .ok plan := hplan
  unfold executePlan scriptOutput
  dsimp only
  rw [hroot]
  dsimp only
  rw [hresult]
  cases format <;> exact ⟨rfl, rfl⟩

end

/-! ## Both formats -/

theorem ofOctets?_shown_json {plan : Plan} (h : plan.FitsWords) :
    Plan.ofOctets? (Utf8.encode (Format.json.shown plan)) = some plan := by
  rw [Plan.ofOctets?, Utf8.decode?_encode, Format.shown]
  simp only [Option.bind_eq_bind, Option.bind_some, Json.parse?_indented, Plan.ofJson?_json h]

/-- What is known of the command in both formats, where scripts have printed something.  Without a plan it fails
in both, and prints nothing else.  With a plan it ends well in both: what it prints itself stands in one piece
between what scripts have printed and what they have left in the buffer.  The plan is read from what the JSON
format prints, and the text tells of the same plan. -/
structure FormatsAgree (outcome : Format → Outcome) (plan? : Option Plan) (printed : Script.Output) : Prop where
  failed : plan? = none →
    ∀ format, (outcome format).code ≠ 0 ∧ (outcome format).octets = printed.octets
  composed : ∀ plan, plan? = some plan → (∀ format, (outcome format).code = 0) ∧
    (∃ octets, (outcome .json).octets = printed.before ++ octets ++ printed.pending ∧
      Plan.ofOctets? octets = some plan) ∧
    ∃ text, (outcome .text).octets = printed.before ++ Utf8.encode text ++ printed.pending ∧
      plan.DescribedBy text

/-- The outcome of the command in a format. -/
def planOutcome (tree : FileTree) (directives? : Option String) (verbose : Bool)
    (file toolset : String) (format : Format) (layout : Layout := .standard) : Outcome :=
  (Request.run verbose (.plan file toolset format)).outcome tree directives? layout

/-- Where tables and functions lie at the same addresses, the two formats are about the same plan, or there is
none; around it there is what the scripts have printed, and nothing else. -/
theorem plan_formats_agree (tree : FileTree) (directives? : Option String) (verbose : Bool)
    (file toolset : String) (layout : Layout) :
    FormatsAgree (planOutcome tree directives? verbose file toolset · layout)
      (plan? tree file toolset layout) (scriptOutput tree file toolset layout) where
  failed h format := by
    obtain ⟨hcode, hoctets⟩ := executePlan_of_none h (logFilter verbose directives?) format
    exact ⟨ne_of_eq_of_ne hcode (by decide), hoctets⟩
  composed plan h := by
    have houtcome := executePlan_of_some h (logFilter verbose directives?)
    refine ⟨fun format => (houtcome format).1, ⟨_, (houtcome .json).2, ?_⟩,
      ⟨_, (houtcome .text).2, plan.describedBy_report⟩⟩
    exact ofOctets?_shown_json (fitsWords_of_plan? h)

/-- A tree with a root that declares nothing, but prints a line. -/
def printingTree : FileTree :=
  FileTree.empty.putEntry [standardRoot.toList]
    (.file (Utf8.encode "print(\"x\") return \x7b\x7d"))

/-- What the script has printed stands before the JSON text of the plan, so that standard output is no such
text. -/
theorem not_formatsAgree_printingTree :
    ¬FormatsAgree (planOutcome printingTree none false standardRoot "gcc" ·)
      (plan? printingTree standardRoot "gcc") .empty := by
  intro h
  have hsome : (plan? printingTree standardRoot "gcc").isSome = true := by decide +kernel
  have hbefore : (scriptOutput printingTree standardRoot "gcc").before = Utf8.encode "x\n" := by
    decide +kernel
  have hpending : (scriptOutput printingTree standardRoot "gcc").pending = [] := by decide +kernel
  obtain ⟨plan, hplan⟩ := Option.isSome_iff_exists.mp hsome
  obtain ⟨-, ⟨octets, hoctets, hread⟩, -⟩ := h.composed plan hplan
  have hshown := (executePlan_of_some hplan (logFilter false none) .json).2
  rw [hbefore, hpending, List.append_nil, ← Utf8.encode_append] at hshown
  obtain rfl : _ = octets := hshown.symm.trans (hoctets.trans (List.append_nil octets))
  -- no value begins with the letter
  have hletter : Json.parse? ("x\n" ++ Format.json.shown plan) = none := by
    rw [Json.parse?, String.toList_append]
    rfl
  rw [Plan.ofOctets?, Utf8.decode?_encode, Option.bind_eq_bind, Option.bind_some, hletter] at hread
  cases hread

end CommandLine

end BuildComposition
