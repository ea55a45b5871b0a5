import BuildComposition.Proofs.Script.Conversions

/-!
# Traces of calls

A call of a function of the table `prj` converts its arguments, and where a metatable hands the access to
a field over to a function, that function runs first and can call functions of `prj` in turn.  The trace
of such calls has their stages: where each of them begins, where it reads a field through a metatable,
and what becomes of it.  Between the beginning of a call and its end there are only the fields that its
conversion reads, each with the calls that this leads to.

## Main definitions

* `Stage`: the stages of calls
* `CallsInTurn`, `FieldsInTurn`: traces of calls that follow one another, and of the fields that one reads
* `Replay`: a host that goes through the stages of a trace

## Main results

* `CallsInTurn.append`, `FieldsInTurn.append`: traces that follow one another
* `CallsInTurn.replay`: what becomes of the host
-/

namespace BuildComposition.Script

/-! ## Stages of calls -/

/-- A stage of a call of a function of `prj`. -/
inductive Stage where
  | begins (o : Operation) (args : List Value)
  /-- A field is read through a metatable. -/
  | reads (key : Value)
  /-- The arguments cannot be converted. -/
  | unconverted (o : Operation)
  | performed (r : Request)
  | refused (r : Request) (e : Refusal)
  /-- Another call is not done with the session. -/
  | running (o : Operation)

namespace Stage

/-- The last stage of a call. -/
def Ends (o : Operation) (args : List Value) : Stage → Prop
  | unconverted o' => o' = o
  | performed r | refused r _ => IsRequestOf o args r
  | _ => False

/-- The request that takes effect. -/
def request? : Stage → Option Request
  | performed r => some r
  | _ => none

/-- What becomes of the host at a stage.  That another call is not done with the session is nothing that
happens. -/
def Leads {σ : Type} [Host σ] (s t : σ) : Stage → Prop
  | performed r => Host.perform s r = .ok t
  | refused r e => Host.perform s r = .error e ∧ t = s
  | running _ => False
  | _ => t = s

end Stage

/-- The fields that a conversion reads, in order, one list for each kind of description. -/
def readFields : Operation → List (List String)
  | .placement => [["kind", "subdir"], ["kind", "root"]]
  | .target => [["name", "kind", "sources"]]
  | _ => [[]]

section

variable {σ : Type} [Host σ]

mutual

/-- The trace of calls that follow one another, and lead from one host to another.  Before a call ends, the
calls that its conversion leads to have ended. -/
inductive CallsInTurn : σ → List Stage → σ → Prop
  | nil (s : σ) : CallsInTurn s [] s
  | call {s t u v : σ} {o : Operation} {args : List Value} {fields : List String}
      {inner rest : List Stage} {stage : Stage} (hfields : fields ∈ readFields o)
      (hinner : FieldsInTurn fields s inner t) (hends : stage.Ends o args) (hleads : stage.Leads t u)
      (hrest : CallsInTurn u rest v) : CallsInTurn s (.begins o args :: (inner ++ stage :: rest)) v

/-- The trace of a conversion.  Some of the fields are read through a metatable, in order, and each is
followed by the calls that this leads to. -/
inductive FieldsInTurn : List String → σ → List Stage → σ → Prop
  | nil (fields : List String) (s : σ) : FieldsInTurn fields s [] s
  | skip {field : String} {fields : List String} {s t : σ} {trace : List Stage}
      (hrest : FieldsInTurn fields s trace t) : FieldsInTurn (field :: fields) s trace t
  | read {field : String} {fields : List String} {s t u : σ} {inner rest : List Stage}
      (hinner : CallsInTurn s inner t) (hrest : FieldsInTurn fields t rest u) :
      FieldsInTurn (field :: fields) s (.reads (.ofString field) :: (inner ++ rest)) u

end

theorem CallsInTurn.append {s t u : σ} {trace more : List Stage} (h : CallsInTurn s trace t)
    (h' : CallsInTurn t more u) : CallsInTurn s (trace ++ more) u := by
  match h with
  | .nil _ => exact h'
  | .call hfields hinner hends hleads hrest =>
    rw [List.cons_append, List.append_assoc, List.cons_append]
    exact .call hfields hinner hends hleads (hrest.append h')
termination_by structural h

namespace FieldsInTurn

/-- There may be more fields than those that are read. -/
theorem weaken {fields : List String} {s t : σ} {trace : List Stage} (h : FieldsInTurn fields s trace t)
    (more : List String) : FieldsInTurn (fields ++ more) s trace t := by
  match h with
  | .nil _ s => exact .nil _ s
  | .skip hrest => exact .skip (hrest.weaken more)
  | .read hinner hrest => exact .read hinner (hrest.weaken more)
termination_by structural h

theorem append {fields more : List String} {s t u : σ} {trace rest : List Stage}
    (h : FieldsInTurn fields s trace t) (h' : FieldsInTurn more t rest u) :
    FieldsInTurn (fields ++ more) s (trace ++ rest) u := by
  match h with
  | .nil [] _ => exact h'
  | .nil (_ :: fields) s => exact .skip ((FieldsInTurn.nil fields s).append h')
  | .skip hrest => exact .skip (hrest.append h')
  | .read hinner hrest =>
    rw [List.cons_append, List.cons_append, List.append_assoc]
    exact .read hinner (hrest.append h')

end FieldsInTurn

/-- The trace of a conversion that reads one of some lists of fields. -/
def ReadsInTurn (choices : List (List String)) (s : σ) (trace : List Stage) (t : σ) : Prop :=
  ∃ fields ∈ choices, FieldsInTurn fields s trace t

/-! ## What becomes of the host -/

/-- A host goes through the stages of a trace. -/
inductive Replay : σ → List Stage → σ → Prop
  | nil (s : σ) : Replay s [] s
  | cons {s t u : σ} {stage : Stage} {trace : List Stage} (hleads : stage.Leads s t)
      (hrest : Replay t trace u) : Replay s (stage :: trace) u

namespace Replay

theorem append {s t u : σ} {trace more : List Stage} (h : Replay s trace t) (h' : Replay t more u) :
    Replay s (trace ++ more) u := by
  induction h with
  | nil => exact h'
  | cons hleads _ ih => exact .cons hleads (ih h')

/-- There is a host at every point of the trace. -/
theorem split {s u : σ} {trace more : List Stage} (h : Replay s (trace ++ more) u) :
    ∃ t, Replay s trace t ∧ Replay t more u := by
  induction trace generalizing s with
  | nil => exact ⟨s, .nil s, h⟩
  | cons stage trace ih =>
    obtain _ | ⟨hleads, hrest⟩ := h
    obtain ⟨t, hbefore, hafter⟩ := ih hrest
    exact ⟨t, .cons hleads hbefore, hafter⟩

/-- No call finds that another one is not done with the session. -/
theorem running_not_mem {s t : σ} {trace : List Stage} (h : Replay s trace t) (o : Operation) :
    .running o ∉ trace := by
  induction h with
  | nil => exact List.not_mem_nil
  | cons hleads _ ih =>
    rintro (_ | ⟨_, hmem⟩)
    · exact hleads
    · exact ih hmem

end Replay

mutual

theorem CallsInTurn.replay {s t : σ} {trace : List Stage} (h : CallsInTurn s trace t) : Replay s trace t := by
  match h with
  | .nil s => exact .nil s
  | .call _ hinner _ hleads hrest =>
    -- a call begins and leaves the host as it is, and only its last stage does more
    exact .cons rfl (hinner.replay.append (.cons hleads hrest.replay))
termination_by structural h

theorem FieldsInTurn.replay {fields : List String} {s t : σ} {trace : List Stage}
    (h : FieldsInTurn fields s trace t) : Replay s trace t := by
  match h with
  | .nil _ s => exact .nil s
  | .skip hrest => exact hrest.replay
  | .read hinner hrest => exact .cons rfl (hinner.replay.append hrest.replay)
termination_by structural h

end

end

end BuildComposition.Script
