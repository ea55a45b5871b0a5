import BuildComposition.Toolset
import BuildComposition.Unit

/-!
# Requests

While a descriptor runs it talks to the composition through requests.  A request about the global
settings is one write to them; a request about the unit changes the frame, in which the unit's own
declarations gather.  The settings that a source of defaults governs can be written only by an
override.

## Main definitions

* `Operation`: the kinds of requests and the names that descriptors call them by
* `Request`: an operation with its arguments
* `Frame`: what a running descriptor has declared about itself
* `Request.effect`: what a request does, or why it is refused

## Main results

* `Request.effect_isGlobal`: only requests about the global settings write to them
-/

namespace BuildComposition

/-- The kinds of requests. -/
inductive Operation where
  | globalIncludePath
  | globalCompilerOption
  | globalLinkerOption
  | globalDefine
  | cppStd
  | runtimeMode
  | showBrief
  | placement
  | target
  | includePath
  | compilerOption
  | linkerOption
  | lib
  | required
  deriving DecidableEq, Repr

namespace Operation

/-- The name that descriptors call an operation by. -/
def name : Operation → String
  | globalIncludePath => "global_include_path"
  | globalCompilerOption => "global_compiler_option"
  | globalLinkerOption => "global_linker_option"
  | globalDefine => "global_define"
  | cppStd => "cpp_std"
  | runtimeMode => "runtime_mode"
  | showBrief => "show_brief"
  | placement => "obj_placement"
  | target => "target"
  | includePath => "include_path"
  | compilerOption => "compiler_option"
  | linkerOption => "linker_option"
  | lib => "lib"
  | required => "required"

/-- All operations. -/
def all : List Operation :=
  [globalIncludePath, globalCompilerOption, globalLinkerOption, globalDefine, cppStd, runtimeMode,
    showBrief, placement, target, includePath, compilerOption, linkerOption, lib, required]

/-- The operation writes a setting that a source of defaults governs. -/
def isGoverned : Operation → Bool
  | runtimeMode | showBrief | placement => true
  | _ => false

/-- The operation writes to the global settings. -/
def isGlobal : Operation → Bool
  | globalIncludePath | globalCompilerOption | globalLinkerOption | globalDefine | cppStd
  | runtimeMode | showBrief | placement => true
  | _ => false

theorem mem_all (o : Operation) : o ∈ all := by cases o <;> decide

end Operation

/-- An operation with its arguments. -/
inductive Request where
  | globalIncludePath (path : String)
  | globalCompilerOption (option : String)
  | globalLinkerOption (option : String)
  | globalDefine (name : String) (value : Option String)
  | cppStd (std : String)
  /-- Sets the runtime mode with a name. -/
  | runtimeMode (name : String)
  | showBrief
  | placement (placement : Placement)
  /-- Declares the target of the unit; a unit has at most one. -/
  | target (target : Target)
  | includePath (path : String)
  | compilerOption (option : String)
  | linkerOption (option : String)
  | lib (name : String)
  /-- Queues a reference for when the descriptor has returned. -/
  | required (reference : String)
  deriving DecidableEq, Repr

/-- The operation of a request. -/
def Request.operation : Request → Operation
  | globalIncludePath _ => .globalIncludePath
  | globalCompilerOption _ => .globalCompilerOption
  | globalLinkerOption _ => .globalLinkerOption
  | globalDefine _ _ => .globalDefine
  | cppStd _ => .cppStd
  | runtimeMode _ => .runtimeMode
  | showBrief => .showBrief
  | placement _ => .placement
  | target _ => .target
  | includePath _ => .includePath
  | compilerOption _ => .compilerOption
  | linkerOption _ => .linkerOption
  | lib _ => .lib
  | required _ => .required

/-- What kind of descriptor runs. -/
inductive DescriptorKind where
  /-- The local override, which writes the governed settings. -/
  | override
  | project
  deriving DecidableEq, Repr

/-- The name of a kind of descriptor. -/
def DescriptorKind.name : DescriptorKind → String
  | override => "override"
  | project => "project"

/-- What a running descriptor has declared about itself. -/
structure Frame where
  kind : DescriptorKind
  target : Option Target
  settings : LocalSettings
  /-- References to evaluate after the descriptor has returned. -/
  required : List String
  deriving DecidableEq, Repr

/-- The frame of a descriptor that has declared nothing. -/
def Frame.fresh (kind : DescriptorKind) : Frame := ⟨kind, none, .empty, []⟩

/-- Why a request is refused. -/
inductive Refusal where
  /-- Another call is not done with the session. -/
  | running (operation : Operation)
  /-- No descriptor runs. -/
  | noDescriptor (operation : Operation)
  /-- The descriptor that runs is not the override. -/
  | overrideOnly (operation : Operation)
  | unknownMode (name : String)
  /-- The descriptor has declared a target of this name before. -/
  | targetDeclared (name : String)
  | emptyReference
  deriving DecidableEq, Repr

/-- The wording of a refusal. -/
def Refusal.message : Refusal → String
  | running o => s!"prj.{o.name} cannot be called while another prj call is running"
  | noDescriptor o => s!"prj.{o.name} may only be called while a project descriptor is evaluated"
  | overrideOnly o => s!"prj.{o.name} may only be called from the local override descriptor"
  | unknownMode name => RuntimeMode.unknown name
  | targetDeclared name => s!"target already declared as '{name}' in this descriptor"
  | emptyReference => "prj.required: path cannot be empty"

/-- What a request does: one write to the global settings, or a new state of the frame. -/
inductive Effect where
  | change (change : Change)
  | frame (frame : Frame)
  deriving DecidableEq, Repr

namespace Request

/-- What a request does to a frame that permits it, or why it is refused. -/
def effectIn (f : Frame) : Request → Except Refusal Effect
  | globalIncludePath p => .ok (.change (.includePath p))
  | globalCompilerOption o => .ok (.change (.compilerOption o))
  | globalLinkerOption o => .ok (.change (.linkerOption o))
  | globalDefine name value => .ok (.change (.define name value))
  | cppStd s => .ok (.change (.cppStd s))
  | runtimeMode name =>
    match RuntimeMode.ofName? name with
    | some m => .ok (.change (.runtimeMode m))
    | none => .error (.unknownMode name)
  | showBrief => .ok (.change .showBrief)
  | placement p => .ok (.change (.placement p))
  | target t =>
    match f.target with
    | some declared => .error (.targetDeclared declared.name)
    | none => .ok (.frame { f with target := some t })
  | includePath p =>
    .ok (.frame { f with settings.includePaths := f.settings.includePaths ++ [p] })
  | compilerOption o =>
    .ok (.frame { f with settings.compilerOptions := f.settings.compilerOptions ++ [o] })
  | linkerOption o =>
    .ok (.frame { f with settings.linkerOptions := f.settings.linkerOptions ++ [o] })
  | lib name => .ok (.frame { f with settings.libs := f.settings.libs ++ [name] })
  | required reference =>
    if reference = "" then .error .emptyReference
    else .ok (.frame { f with required := f.required ++ [reference] })

/-- What a request does, or why it is refused.  That a descriptor runs is checked first, and next
that it may write governed settings if the request does. -/
def effect (frame : Option Frame) (r : Request) : Except Refusal Effect :=
  match frame with
  | none => .error (.noDescriptor r.operation)
  | some f =>
    if r.operation.isGoverned ∧ f.kind ≠ .override then .error (.overrideOnly r.operation)
    else r.effectIn f

/-- Only requests about the global settings write to them, and those do nothing else. -/
theorem effect_isGlobal {frame : Option Frame} {r : Request} {e : Effect}
    (h : r.effect frame = .ok e) : r.operation.isGlobal = true ↔ ∃ c, e = .change c := by
  unfold effect at h
  split at h
  · cases h
  split at h
  · cases h
  cases r with
  | runtimeMode name =>
    simp only [effectIn] at h
    split at h
    · cases h
      simp [operation, Operation.isGlobal]
    · cases h
  | target t =>
    simp only [effectIn] at h
    split at h
    · cases h
    · cases h
      simp [operation, Operation.isGlobal]
  | required reference =>
    simp only [effectIn] at h
    split at h
    · cases h
    · cases h
      simp [operation, Operation.isGlobal]
  | _ =>
    cases h
    simp [operation, Operation.isGlobal]

end Request

end BuildComposition
