import BuildComposition.Report
import Mathlib.Data.List.Basic

/-!
# What the text about a plan tells

The text about a plan begins with a line that has the fingerprint.  Fingerprints are made of hexadecimal
digits, so that this line ends where the fingerprint does.  The settings come next, then the number of units,
and then one entry for each unit in plan order.  An entry begins with a line that has the reference of its
unit.  In a brief text this is all; in a detailed one the unit has a number as well, its target is named, and
further lines may be set in under the first one.

## Main definitions

* `firstLine`: the first line of a text
* `Plan.entryLine`, `Plan.Lists`: the lines that list units
* `Plan.DescribedBy`: a text that tells of a plan

## Main results

* `mem_hexadecimalDigits_of_mem_fingerprint`: fingerprints are made of hexadecimal digits
* `Plan.lists_unitLines`: the lines about units list them, in a brief text as well as in a detailed one
* `Plan.describedBy_report`: the text about a plan tells of the plan
-/

namespace BuildComposition

/-! ## Fingerprints -/

/-- The hexadecimal digits, in lowercase. -/
def hexadecimalDigits : List Char := "0123456789abcdef".toList

theorem digitChar_mem_hexadecimalDigits : ∀ n < 16, Nat.digitChar n ∈ hexadecimalDigits := by decide

theorem Sha256.mem_hexadecimalDigits_of_mem_hex {message : Bytes} {c : Char}
    (h : c ∈ (hex message).toList) : c ∈ hexadecimalDigits := by
  rw [hex, String.toList_ofList, List.mem_flatMap] at h
  obtain ⟨w, -, hc⟩ := h
  obtain ⟨shift, -, rfl⟩ := List.mem_map.mp hc
  exact digitChar_mem_hexadecimalDigits _ (Nat.mod_lt _ (by decide))

theorem mem_hexadecimalDigits_of_mem_fingerprint {j : Json} {c : Char}
    (h : c ∈ (fingerprint j).toList) : c ∈ hexadecimalDigits := by
  rw [fingerprint, String.toList_ofList] at h
  exact Sha256.mem_hexadecimalDigits_of_mem_hex (List.mem_of_mem_take h)

/-! ## Lines -/

/-- The first line of a text. -/
def firstLine (text : String) : String := String.ofList (text.toList.takeWhile (· ≠ '\n'))

theorem unlines_cons (line : String) (lines : List String) :
    unlines (line :: lines) = line ++ "\n" ++ unlines lines := by
  simp [unlines, String.join_cons]

/-- A line that holds no end of line is the first one of the text that it begins. -/
theorem firstLine_unlines_cons {line : String} (h : ∀ c ∈ line.toList, c ≠ '\n')
    (lines : List String) : firstLine (unlines (line :: lines)) = line := by
  have hline : ∀ c ∈ line.toList, decide (c ≠ '\n') = true := fun c hc => decide_eq_true (h c hc)
  rw [firstLine, unlines_cons, String.toList_append, String.toList_append, List.append_assoc,
    List.takeWhile_append_of_pos hline]
  simp

namespace Plan

/-- The line that begins the text about a plan. -/
def titleLine (p : Plan) : String := "• Plan: " ++ p.fingerprint

theorem firstLine_titleLine (p : Plan) (lines : List String) :
    firstLine (unlines (p.titleLine :: lines)) = p.titleLine := by
  refine firstLine_unlines_cons (fun c hc => ?_) lines
  rintro rfl
  rw [titleLine, String.toList_append, List.mem_append] at hc
  rcases hc with hc | hc
  · exact absurd hc (by decide)
  · exact absurd (mem_hexadecimalDigits_of_mem_fingerprint hc) (by decide)

/-! ## Entries -/

/-- The blanks in front of a unit in a detailed text, as many as its depth asks for. -/
def margin (u : ResolvedUnit) : String := "  " ++ String.join (List.replicate u.depth "  ")

/-- What a detailed text says of the target of a unit. -/
def targetNote (u : ResolvedUnit) : String :=
  match u.target with
  | none => ""
  | some t => " → " ++ t.name ++ " (" ++ t.kind.name ++ ")"

/-- The line that begins the entry of the unit with a number. -/
def entryLine (p : Plan) (number : Nat) (u : ResolvedUnit) : String :=
  if p.config.showBrief then "  → " ++ u.reference
  else margin u ++ toString number ++ ". " ++ u.reference ++ targetNote u

/-- Further lines about a unit: none in a brief text, and otherwise lines that are set in further than the
one that begins the entry. -/
def SetIn (p : Plan) (u : ResolvedUnit) (lines : List String) : Prop :=
  (p.config.showBrief = true → lines = []) ∧ ∀ line ∈ lines, ∃ rest, line = margin u ++ "   " ++ rest

/-- Lines that list units from a number on, in order and with one entry for each unit. -/
inductive Lists (p : Plan) : Nat → List ResolvedUnit → List String → Prop
  | nil (number : Nat) : Lists p number [] []
  | cons {number : Nat} {u : ResolvedUnit} {us : List ResolvedUnit} {further lines : List String}
      (hfurther : p.SetIn u further) (hlines : Lists p (number + 1) us lines) :
      Lists p number (u :: us) (p.entryLine number u :: (further ++ lines))

variable {p : Plan}

theorem setIn_map (hbrief : p.config.showBrief = false) (u : ResolvedUnit) (rests : List String) :
    p.SetIn u (rests.map (margin u ++ "   " ++ ·)) := by
  refine ⟨fun h => ?_, fun line hline => ?_⟩
  · rw [hbrief] at h
    cases h
  · obtain ⟨rest, -, rfl⟩ := List.mem_map.mp hline
    exact ⟨rest, rfl⟩

/-- What the further lines about a unit say. -/
def furtherTexts (p : Plan) (u : ResolvedUnit) : List String :=
  (match u.target with
    | none => []
    | some _ =>
      ["objects: " ++ (p.objectDir u).text, "output:  " ++ (p.targetDir u).text]) ++
  (if u.settings.isEmpty then [] else ["local:   " ++ u.settings.text])

theorem detailLines_eq (hbrief : p.config.showBrief = false) (number : Nat) (u : ResolvedUnit) :
    p.detailLines number u =
      p.entryLine number u :: (p.furtherTexts u).map (margin u ++ "   " ++ ·) := by
  have hsplit : ∀ label rest : String, "   " ++ label ++ rest = "   " ++ (label ++ rest) :=
    fun label rest => String.append_assoc ..
  have hobjects := hsplit "objects: "
  have houtput := hsplit "output:  "
  have hlocal := hsplit "local:   "
  unfold detailLines entryLine targetNote furtherTexts margin
  rw [hbrief]
  by_cases hsettings : u.settings.isEmpty = true <;> cases u.target <;>
    simp [hsettings, String.append_assoc, toString, ← hobjects, ← houtput, ← hlocal]

theorem lists_detailsFrom (hbrief : p.config.showBrief = false) (number : Nat)
    (us : List ResolvedUnit) : p.Lists number us (p.detailsFrom number us) := by
  induction us generalizing number with
  | nil => exact .nil number
  | cons u us ih =>
    rw [detailsFrom, detailLines_eq hbrief]
    exact .cons (setIn_map hbrief u _) (ih (number + 1))

theorem lists_briefLines (hbrief : p.config.showBrief = true) (number : Nat)
    (us : List ResolvedUnit) : p.Lists number us (us.map briefLine) := by
  induction us generalizing number with
  | nil => exact .nil number
  | cons u us ih =>
    have hline : p.entryLine number u = briefLine u := by
      rw [entryLine, hbrief]
      rfl
    have hnone : p.SetIn u [] := ⟨fun _ => rfl, fun _ h => by cases h⟩
    rw [List.map_cons, ← hline]
    exact .cons hnone (ih (number + 1))

theorem lists_unitLines (p : Plan) : p.Lists 1 p.units p.unitLines := by
  unfold unitLines
  cases hbrief : p.config.showBrief with
  | true => exact lists_briefLines hbrief 1 p.units
  | false => exact lists_detailsFrom hbrief 1 p.units

/-! ## The whole text -/

/-- The line that has the number of units. -/
def countLine (p : Plan) : String := "✓ Units: " ++ toString p.units.length

/-- A text that tells of a plan.  Its first line has the fingerprint of the plan.  Behind the settings and an
empty line there is the number of units, and then one entry for each unit in plan order. -/
structure DescribedBy (p : Plan) (text : String) : Prop where
  firstLine_eq : firstLine text = "• Plan: " ++ p.fingerprint
  parts : ∃ lines, p.Lists 1 p.units lines ∧
    text = unlines (p.titleLine :: (p.settingLines ++ "" :: p.countLine :: lines))

theorem describedBy_report (p : Plan) : p.DescribedBy p.report := by
  have hreport : p.report =
      unlines (p.titleLine :: (p.settingLines ++ "" :: p.countLine :: p.unitLines)) := by
    rw [report, List.append_assoc]
    rfl
  refine ⟨?_, p.unitLines, p.lists_unitLines, hreport⟩
  rw [hreport]
  exact p.firstLine_titleLine _

end Plan

end BuildComposition
