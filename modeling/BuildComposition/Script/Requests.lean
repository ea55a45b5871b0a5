import BuildComposition.Script.Library.Arguments

/-!
# Requests of scripts

The functions of the table `prj` turn their arguments into a request and hand it to the host.  All
arguments are converted before the host is asked; reading the fields of a table can run scripts
through metatables, whose own requests come first.

## Main definitions

* `textOf`: a value as a text
* `fieldOf`: a field that the composition reads
* `Call.targetAt`, `Call.placementAt`: tables that describe a target or a placement
* `Call.requestOf`: the request of a call
* `Call.request`: converts the arguments and performs the request
-/

namespace BuildComposition.Script

/-- A string that is text, or a number as text. -/
def textOf (v : Value) : Except ConversionFault String :=
  match v with
  | .str s =>
    match Utf8.decode? s, Utf8.fault? s with
    | some t, _ => .ok t
    | none, some f => .error (.notText f)
    | none, none => .error (.notString .string)
  | .int n => .ok (toString n.toInt)
  | .float x => .ok (Value.floatText x)
  | v => .error (.notString v.kind)

section

variable {σ : Type}

/-- A value as a text. -/
def asText (v : Value) : Run σ String :=
  match textOf v with
  | .ok t => return t
  | .error f => fail (.conversion f)

/-- A value as a text, if it is not `nil`. -/
def asText? (v : Value) : Run σ (Option String) :=
  match v with
  | .nil => return none
  | v => some <$> asText v

/-- A field of a table.  A table with a metatable is accessed in a call of its own. -/
def fieldOf (invoke : Invoke σ) (caller : Caller) (id : Nat) (name : String) : Run σ Value := do
  match ← load (·.metatable id) with
  | none => peek id (.ofString name)
  | some _ => return first (← invoke (.builtin .access) [.table id, .ofString name] caller)

/-- Turns each of some values into a text. -/
def asTexts : List Value → Run σ (List String)
  | [] => return []
  | v :: vs => do
    let t ← asText v
    return t :: (← asTexts vs)

end

namespace Call

variable {σ : Type} (c : Call σ)

/-- Failures of a conversion are failures of the argument at a position. -/
def converting {α : Type} (position : Nat) (convert : Value → Run σ α) : Run σ α :=
  tryCatch (convert (c.arg position)) fun
    | .thrown v => do fail (.argument position (← load (·.failureOf v)))
    | .exhausted => throw .exhausted

/-- An argument as a text. -/
def textAt (position : Nat) : Run σ String := c.converting position asText

/-- A field of a table. -/
def field (id : Nat) (name : String) : Run σ Value := fieldOf c.invoke c.caller id name

/-- A field of a table as a text, if it is there. -/
def textField? (id : Nat) (name : String) : Run σ (Option String) := do
  asText? (← c.field id name)

/-- The placement that a table describes. -/
def placementOf (id : Nat) : Run σ Placement := do
  match ← c.textField? id "kind" with
  | none => fail (.description .placementKindMissing)
  | some "default" => return .default
  | some "source_subdir" => return .sourceSubdir ((← c.textField? id "subdir").getD "o")
  | some "runtime_subdir" => return .runtimeSubdir ((← c.textField? id "root").getD "target")
  | some kind => fail (.description (.unknownPlacement kind))

/-- The target that a table describes. -/
def targetOf (id : Nat) : Run σ BuildComposition.Target := do
  match ← c.textField? id "name" with
  | none => fail (.description .targetNameMissing)
  | some "" => fail (.description .targetNameEmpty)
  | some name =>
    let kind ← match ← c.textField? id "kind" with
      | none => pure TargetKind.exe
      | some kind =>
        match TargetKind.ofName? kind with
        | some k => pure k
        | none => fail (.description (.unknownTargetKind kind))
    match ← c.field id "sources" with
    | .nil => return ⟨name, kind, []⟩
    | .table sources => return ⟨name, kind, ← asTexts (← items sources)⟩
    | _ => fail (.description .sourcesNotList)

/-- An argument as a description, which has to be a table. -/
def describedAt {α : Type} (operation : Operation) (position : Nat) (read : Nat → Run σ α) :
    Run σ α :=
  c.converting position fun
    | .table id => read id
    | v => fail (.description (.tableExpected operation v.kind))

/-- The request of a call. -/
def requestOf : Operation → Run σ Request
  | .globalIncludePath => .globalIncludePath <$> c.textAt 1
  | .globalCompilerOption => .globalCompilerOption <$> c.textAt 1
  | .globalLinkerOption => .globalLinkerOption <$> c.textAt 1
  | .globalDefine => do return .globalDefine (← c.textAt 1) (← c.converting 2 asText?)
  | .cppStd => .cppStd <$> c.textAt 1
  | .runtimeMode => .runtimeMode <$> c.textAt 1
  | .showBrief => return .showBrief
  | .placement => .placement <$> c.describedAt .placement 1 c.placementOf
  | .target => .target <$> c.describedAt .target 1 c.targetOf
  | .includePath => .includePath <$> c.textAt 1
  | .compilerOption => .compilerOption <$> c.textAt 1
  | .linkerOption => .linkerOption <$> c.textAt 1
  | .lib => .lib <$> c.textAt 1
  | .required => .required <$> c.textAt 1

/-- Converts the arguments and performs the request. -/
def request [Host σ] (operation : Operation) : Run σ (List Value) := do
  -- the host sees the request only now, after scripts that the conversion ran
  perform (← c.requestOf operation)
  return []

end Call

end BuildComposition.Script
