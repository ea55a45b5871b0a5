import BuildComposition.Log.Basic
import BuildComposition.Request

/-!
# Sessions

The state that the descriptors of one run share: the global settings so far, the frame of the
descriptor that runs, and a journal of what has happened.  The global settings are always what the
writes in the journal make of empty ones.

## Main definitions

* `Event`, `Event.entry?`: an entry of the journal, and what the log says about it
* `Session`: the state
* `Session.write`, `Session.perform`, `Session.openFrame`, `Session.closeFrame`: what can happen to it
* `Performed s`: a session that requests alone have led to from `s`
* `Session.extend`, `Performed.onto`: what has happened in one session happens in another

## Main results

* `Session.settings`: the global settings are the result of the writes in the journal
-/

namespace BuildComposition

/-- Something that happened in a run. -/
inductive Event where
  | composing (toolset : Toolset) (runDir : Path)
  /-- A write to the global settings by the run itself. -/
  | changed (change : Change)
  | ruleFired (toolset : Toolset) (predicate : ToolsetPredicate)
  | rulesApplied (count : Nat)
  | overrideFound (path : Path)
  | noOverride (path : Path)
  /-- A reference leads to a descriptor that is now evaluated. -/
  | evaluating (reference : String) (descriptor : Path) (depth : Nat)
  /-- A descriptor starts with a fresh frame. -/
  | opened (kind : DescriptorKind)
  /-- A request took effect. -/
  | performed (request : Request) (effect : Effect)
  /-- The frame of a descriptor is taken away. -/
  | closed
  | skipped (reference : String)
  | descending (reference : String) (count : Nat)
  | modeUnset (path : Path)
  | finished (units : Nat)
  deriving DecidableEq, Repr

/-- The entry of the log about a write; writes of single values have none. -/
def Change.entry? : Change → Option LogEntry
  | .includePath p => some (traced "include path" "path" p)
  | .compilerOption o => some (traced "compiler option" "option" o)
  | .linkerOption o => some (traced "linker option" "option" o)
  | .define name value => some (traced "define" "define" (defineText name value))
  | _ => none
where
  /-- The entry about one more value of a list. -/
  traced (message name value : String) : LogEntry :=
    ⟨.trace, "prjcomp_lib::config::accumulator", message, [(name, value)]⟩

namespace Event

/-- The entry of the log about an event, if it has one. -/
def entry? : Event → Option LogEntry
  | composing t dir =>
    some ⟨.info, "prjcomp_lib::compose", "composing build",
      [("toolset", t.name), ("run_dir", dir.text)]⟩
  | changed c => c.entry?
  | ruleFired t p =>
    some ⟨.debug, "prjcomp_lib::toolset", "toolset rule fired",
      [("toolset", t.name), ("predicate", p.text)]⟩
  | rulesApplied count =>
    some ⟨.debug, "prjcomp_lib::compose", "toolset rules applied", [("applied", toString count)]⟩
  | overrideFound path =>
    some ⟨.info, "prjcomp_lib::overrides", "using local override descriptor", [("path", path.text)]⟩
  | noOverride path =>
    some ⟨.debug, "prjcomp_lib::overrides", "no local override, using built-in defaults",
      [("path", path.text)]⟩
  | evaluating reference _ depth =>
    some ⟨.debug, "prjcomp_lib::graph::traverse", "evaluating descriptor",
      [("reference", reference), ("depth", toString depth)]⟩
  | performed _ (.change c) => c.entry?
  | skipped reference =>
    some ⟨.debug, "prjcomp_lib::graph::traverse", "descriptor already evaluated, skipping",
      [("reference", reference)]⟩
  | descending reference count =>
    some ⟨.trace, "prjcomp_lib::graph::traverse", "descending into required projects",
      [("reference", reference), ("count", toString count)]⟩
  | modeUnset path =>
    some ⟨.warn, "prjcomp_lib::compose", "local override did not set a runtime mode",
      [("path", path.text)]⟩
  | finished units =>
    some ⟨.info, "prjcomp_lib::compose", "composition finished", [("units", toString units)]⟩
  | opened _ | performed _ (.frame _) | closed => none

/-- The write to the global settings that an event stands for. -/
def change? : Event → Option Change
  | changed c => some c
  | performed _ (.change c) => some c
  | _ => none

end Event

/-- The state that the descriptors of one run share. -/
structure Session where
  config : Config
  /-- The frame of the descriptor that runs. -/
  frame : Option Frame
  journal : List Event
  /-- The global settings are the result of the writes in the journal. -/
  settings : config = Config.empty.applyAll (journal.filterMap Event.change?)

namespace Session

/-- A state in which nothing has happened, with a frame. -/
def blank (frame : Option Frame) : Session := ⟨.empty, frame, [], rfl⟩

/-- The state in which nothing has happened. -/
def start : Session := blank none

/-- Notes an event that writes no setting. -/
def note (s : Session) (e : Event) (h : e.change? = none := by rfl) : Session :=
  ⟨s.config, s.frame, s.journal ++ [e], by simp [s.settings, h]⟩

/-- Writes to the global settings. -/
def write (s : Session) (c : Change) : Session :=
  ⟨s.config.apply c, s.frame, s.journal ++ [.changed c], by
    simp [s.settings, Event.change?]⟩

/-- Writes to the global settings in order. -/
def writeAll (s : Session) (changes : List Change) : Session := changes.foldl write s

/-- Starts a descriptor with a fresh frame. -/
def openFrame (s : Session) (kind : DescriptorKind) : Session :=
  { s.note (.opened kind) with frame := some (.fresh kind) }

/-- Takes the frame away. -/
def closeFrame (s : Session) : Session := { s.note .closed with frame := none }

/-- The state after an effect. -/
def after (s : Session) (r : Request) : Effect → Session
  | .change c =>
    ⟨s.config.apply c, s.frame, s.journal ++ [.performed r (.change c)], by
      simp [s.settings, Event.change?]⟩
  | .frame f => { s.note (.performed r (.frame f)) with frame := some f }

/-- Performs a request, or refuses it. -/
def perform (s : Session) (r : Request) : Except Refusal Session :=
  (r.effect s.frame).map (s.after r)

/-- What has happened in another state happens in this one, too. -/
def extend (s t : Session) : Session :=
  ⟨s.config.applyAll (t.journal.filterMap Event.change?), t.frame, s.journal ++ t.journal, by
    simp [s.settings]⟩

/-- The log of a run. -/
def log (s : Session) : List LogEntry := s.journal.filterMap Event.entry?

@[simp] theorem config_note (s : Session) (e : Event) (h : e.change? = none) :
    (s.note e h).config = s.config := rfl

@[simp] theorem frame_note (s : Session) (e : Event) (h : e.change? = none) :
    (s.note e h).frame = s.frame := rfl

@[simp] theorem config_openFrame (s : Session) (kind : DescriptorKind) :
    (s.openFrame kind).config = s.config := rfl

@[simp] theorem config_closeFrame (s : Session) : s.closeFrame.config = s.config := rfl

@[simp] theorem journal_openFrame (s : Session) (kind : DescriptorKind) :
    (s.openFrame kind).journal = s.journal ++ [.opened kind] := rfl

@[simp] theorem journal_closeFrame (s : Session) :
    s.closeFrame.journal = s.journal ++ [.closed] := rfl

@[simp] theorem config_write (s : Session) (c : Change) :
    (s.write c).config = s.config.apply c := rfl

@[simp] theorem frame_write (s : Session) (c : Change) : (s.write c).frame = s.frame := rfl

@[simp] theorem config_writeAll (s : Session) (changes : List Change) :
    (s.writeAll changes).config = s.config.applyAll changes := by
  induction changes generalizing s with
  | nil => rfl
  | cons c changes ih => exact ih (s.write c)

end Session

/-- Requests in order, each with its effect, lead from one session to another. -/
inductive Performs : Session → Session → Prop
  | refl (s : Session) : Performs s s
  | step {s t u : Session} {r : Request} : Performs s t → t.perform r = .ok u → Performs s u

/-- What requests do to a session depends on its frame only. -/
theorem Session.perform_extend (s : Session) {t u : Session} {r : Request}
    (h : t.perform r = .ok u) : (s.extend t).perform r = .ok (s.extend u) := by
  have hafter : ∀ x, (s.extend t).after r x = s.extend (t.after r x) := by
    intro x
    cases x with
    | change c => simp [Session.after, Session.extend, Event.change?]
    | frame f =>
      have hquiet : (Event.performed r (.frame f)).change? = none := rfl
      simp [Session.after, Session.extend, Session.note, hquiet]
  rw [Session.perform] at h ⊢
  have hframe : (s.extend t).frame = t.frame := rfl
  rw [hframe]
  cases heffect : r.effect t.frame with
  | error e =>
    rw [heffect] at h
    cases h
  | ok x =>
    rw [heffect] at h
    cases h
    exact congrArg Except.ok (hafter x)

/-- Requests lead on from every session with the same frame. -/
theorem Performs.extend {s t : Session} (h : Performs (.blank s.frame) t) :
    Performs s (s.extend t) := by
  induction h with
  | refl =>
    have hsame : s.extend (.blank s.frame) = s := by simp [Session.extend, Session.blank]
    rw [hsame]
    exact .refl s
  | step _ hr ih => exact ih.step (s.perform_extend hr)

/-- A session that requests alone have led to from `s`. -/
structure Performed (s : Session) where
  session : Session
  performs : Performs s session

namespace Performed

/-- Before the first request. -/
def start (s : Session) : Performed s := ⟨s, .refl s⟩

/-- Performs one more request, or refuses it. -/
def perform {s : Session} (p : Performed s) (r : Request) : Except Refusal (Performed s) :=
  match h : p.session.perform r with
  | .ok t => .ok ⟨t, p.performs.step h⟩
  | .error e => .error e

/-- The same requests in a session with the same frame. -/
def onto (s : Session) (p : Performed (.blank s.frame)) : Performed s :=
  ⟨s.extend p.session, p.performs.extend⟩

end Performed

end BuildComposition
