import BuildComposition.Proofs.Script.PlainTables
import BuildComposition.Proofs.Script.ProjectCalls
import BuildComposition.Proofs.Script.TracedCalls
import BuildComposition.Proofs.Session.Declarations
import BuildComposition.Proofs.Session.Updates

/-!
# Calls within calls

A metatable can hand the access to a field over to a function that calls functions of `prj` itself, while
another call converts its arguments.  These calls come first, in the order in which the fields are read,
and each of them ends as it would anywhere else.  What the outer call does then is what it would do with a
table without a metatable that describes the same, and if its arguments cannot be converted it does
nothing more.  No call ever finds that another one is not done with the session, and a target that has
been declared stays, whichever call declares it.

## Main definitions

* `DeclaresOnce`: what becomes of the target along a trace
* `RunsInTurn`: a run whose calls follow one another
* `ConvertsFirst`: a call that comes after those that its conversion leads to

## Main results

* `Replay.target?_eq`, `Replay.exists_refuses`: a target is declared once, and why a call is refused
* `reentrant_calls`: the calls of every run follow one another, and each comes after its conversion
-/

namespace BuildComposition.Script

open ShowsSession (session)

variable {σ α : Type} [Host σ]

/-! ## Targets along a trace -/

/-- The target that is declared at a stage. -/
def Stage.target? (stage : Stage) : Option BuildComposition.Target := stage.request?.bind Request.target?

/-- The targets that are declared in a trace come behind the one that is there. -/
theorem Replay.target?_eq [ShowsSession σ] {s t : σ} {trace : List Stage} (h : Replay s trace t) :
    (session t).target?.toList = (session s).target?.toList ++ trace.filterMap Stage.target? := by
  induction h with
  | nil => simp
  | @cons s t u stage trace hleads _ ih =>
    have hstage : (session t).target?.toList = (session s).target?.toList ++ stage.target?.toList := by
      cases stage with
      | performed r =>
        have hsession := ShowsSession.map_perform s r
        rw [show Host.perform s r = .ok t from hleads] at hsession
        exact Session.target?_perform hsession.symm
      | refused r e => simp [show t = s from hleads.2, Stage.target?, Stage.request?]
      | running o => exact hleads.elim
      | _ => simp [show t = s from hleads, Stage.target?, Stage.request?]
    rw [ih, hstage, List.append_assoc]
    cases h : stage.target? <;> simp [h]

/-- A refusal has one of the documented reasons, of which none is that another call is not done. -/
theorem Replay.exists_refuses [ShowsSession σ] {s t : σ} {trace : List Stage} (h : Replay s trace t)
    {r : Request} {e : Refusal} (hmem : .refused r e ∈ trace) : ∃ frame, Refuses frame r e := by
  induction h with
  | nil => cases hmem
  | @cons s _ _ _ _ hleads _ ih =>
    rcases List.mem_cons.mp hmem with rfl | hmem
    · have hsession := ShowsSession.map_perform s r
      rw [hleads.1] at hsession
      exact ⟨_, Session.perform_eq_error_iff.mp hsession.symm⟩
    · exact ih hmem

/-- The target of the descriptor that runs is declared once at most, and stays. -/
structure DeclaresOnce [ShowsSession σ] (s : σ) (trace : List Stage) (t : σ) : Prop where
  /-- One target is declared if there was none, and none if there was one. -/
  declared : (session t).target?.toList = (session s).target?.toList ++ trace.filterMap Stage.target?
  /-- A target that is there at one point is there at every later one. -/
  kept : ∀ before between after, trace = before ++ (between ++ after) → ∃ u v, Replay s before u ∧
    Replay u between v ∧ Replay v after t ∧
      ∀ target, (session u).target? = some target → (session v).target? = some target

theorem Replay.declaresOnce [ShowsSession σ] {s t : σ} {trace : List Stage} (h : Replay s trace t) :
    DeclaresOnce s trace t where
  declared := h.target?_eq
  kept := by
    rintro before between after rfl
    obtain ⟨u, hbefore, hrest⟩ := h.split
    obtain ⟨v, hbetween, hafter⟩ := hrest.split
    refine ⟨u, v, hbefore, hbetween, hafter, fun target htarget => ?_⟩
    have heq := hbetween.target?_eq
    rw [htarget, Option.toList_some, List.singleton_append] at heq
    cases hv : (session v).target? with
    | none => simp [hv] at heq
    | some other =>
      rw [hv, Option.toList_some, List.cons.injEq] at heq
      rw [heq.1]

/-! ## Runs and their calls -/

/-- What a run gives or fails for, and the host that it leaves. -/
def outcome : EStateM.Result Fault (Machine σ) α → Except ScriptError α × σ
  | .ok a m => (.ok a, m.host)
  | .error (.thrown v) m => (.error (m.memory.failureOf v), m.host)
  | .error .exhausted m => (.error .exhausted, m.host)

/-- The calls of a run, which starts with a host, follow one another. -/
structure RunsInTurn [ShowsSession σ] (host : σ) (run : EStateM.Result Fault (Machine σ) α)
    (traced : EStateM.Result Fault (Machine (Traced σ)) α) : Prop where
  /-- That calls take the session and give it back leaves the run as it is. -/
  same : EndsLike (fun s t => s.untraced = t) Eq Eq traced run
  /-- The trace is one of calls, each of which has its effect when those within it have had theirs. -/
  calls : CallsInTurn host (endOf traced).host.trace (endOf run).host
  /-- No call fails because another one is not done with the session. -/
  never_running : ∀ o, .running o ∉ (endOf traced).host.trace ∧
    ∀ r, .refused r (.running o) ∉ (endOf traced).host.trace
  declares_once : DeclaresOnce host (endOf traced).host.trace (endOf run).host

section

variable {m : Machine σ} {run : EStateM.Result Fault (Machine σ) α}
  {traced : EStateM.Result Fault (Machine (Traced σ)) α}

omit [Host σ] in
theorem grown_of_since {P : σ → List Stage → σ → Prop}
    (h : EndsLike (Since P m.traced.host) Eq Eq traced run) :
    P m.host (endOf traced).host.trace (endOf run).host := by
  cases h with
  | ok _ hst | error _ hst =>
    obtain ⟨rfl, -, trace, htrace, hP⟩ := hst
    rw [endOf, htrace]
    exact hP

theorem runsInTurn_of_since [ShowsSession σ]
    (h : EndsLike (Since CallsInTurn m.traced.host) Eq Eq traced run) : RunsInTurn m.host run traced := by
  have hcalls := grown_of_since h
  refine ⟨h.mono fun _ _ hst => hst.same, hcalls, fun o => ⟨hcalls.replay.running_not_mem o, ?_⟩,
    hcalls.replay.declaresOnce⟩
  intro r hmem
  obtain ⟨frame, hrefuses⟩ := hcalls.replay.exists_refuses hmem
  cases hrefuses

end

/-- A call of a function of `prj` comes after the calls that the conversion of its arguments leads to. -/
structure ConvertsFirst [ShowsSession σ] (levels : Nat) (o : Operation) (args : List Value)
    (caller : Caller) (m : Machine σ) : Prop where
  inTurn : RunsInTurn m.host ((runBuiltin (callWithin levels) (.request o) args caller).run m)
    ((tracedLibrary (tracedWithin levels) (.request o) args caller).run m.traced)
  /-- The fields are read in order, each with the calls that this leads to, and only then the host is
  asked. -/
  call : CallOf o args ((conversion (callWithin levels) o args caller).run m) m.host
    (endOf ((tracedLibrary (tracedWithin levels) (.request o) args caller).run m.traced)).host.trace
    (endOf ((runBuiltin (callWithin levels) (.request o) args caller).run m)).host
  /-- A call whose arguments cannot be converted fails for this, and does nothing more. -/
  unconverted : ∀ fault t, (conversion (callWithin levels) o args caller).run m = .error fault t →
    (runBuiltin (callWithin levels) (.request o) args caller).run m = .error fault t
  /-- What has been converted can be described by one more table, without a metatable. -/
  described : ∀ r t, (conversion (callWithin levels) o args caller).run m = .ok r t →
    o = .placement ∨ o = .target →
      ∃ fields, (t.memory.withFields fields).Denotes t.memory.tables.size r
  /-- A call whose arguments have been converted ends as the call with any such table does, where the host
  is the one that the conversion leaves. -/
  asDescribed : ∀ r t, (conversion (callWithin levels) o args caller).run m = .ok r t →
    ∀ (n : Machine σ) (id : Nat) (plain : List Value), n.host = t.host → n.memory.Denotes id r →
      plain.length = args.length → plain.getD 0 .nil = .table id →
        outcome ((runBuiltin (callWithin levels) (.request o) args caller).run m) =
          outcome ((runBuiltin (callWithin levels) (.request o) plain caller).run n)

/-- What becomes of a request depends on the host alone. -/
theorem outcome_perform_congr (r : Request) {m n : Machine σ} (h : m.host = n.host) :
    outcome ((do perform r; return [] : Run σ (List Value)).run m) =
      outcome ((do perform r; return [] : Run σ (List Value)).run n) := by
  rw [EStateM.run_bind, EStateM.run_bind]
  cases hperform : Host.perform m.host r with
  | ok host =>
    rw [run_perform_of_ok hperform, run_perform_of_ok (h ▸ hperform)]
    rfl
  | error e =>
    obtain ⟨id, t, hm, ht, hfailure⟩ := run_perform_of_error hperform
    obtain ⟨id', t', hn, ht', hfailure'⟩ := run_perform_of_error (h ▸ hperform)
    rw [hm, hn]
    simp only [outcome, Memory.failureOf, ht, ht', hfailure, hfailure', h]

theorem convertsFirst [ShowsSession σ] (levels : Nat) (o : Operation) (args : List Value) (caller : Caller)
    (m : Machine σ) : ConvertsFirst levels o args caller m := by
  have hends := ends_tracedRequest (mirrorsCalls_tracedWithin levels) o args caller (s := m.traced) rfl
  have hrequest := Keeps.conversion (callWithin levels) o args caller m trivial
  constructor
  case inTurn =>
    exact runsInTurn_of_since (hends.mono fun _ _ h => h.mono fun _ _ _ hcall => hcall.callsInTurn hrequest)
  case call => exact grown_of_since hends
  case unconverted =>
    intro fault t h
    rw [runBuiltin_request, EStateM.run_bind, h]
  case described => exact fun r t h ho => exists_denotes ho h
  case asDescribed =>
    intro r t h n id plain hhost hdenotes hlength hplain
    have hr : r.operation = o := by
      rw [h] at hrequest
      exact hrequest.2.operation_eq
    subst hr
    -- both calls come to the same request, on machines that differ in everything but the host
    obtain ⟨u, hu, hsame⟩ := hdenotes.exists_run hplain (hlength ▸ room_of_conversion h) levels rfl
    rw [runBuiltin_request, runBuiltin_request, EStateM.run_bind, EStateM.run_bind, h, hu]
    exact outcome_perform_congr r (hhost.symm.trans hsame.symm)

/-- The calls of functions of `prj` follow one another in every run, and each of them does what it would do
without those that the conversion of its arguments leads to, where these leave off. -/
theorem reentrant_calls [ShowsSession σ] (levels : Nat) (caller : Caller) (m : Machine σ) :
    (∀ f args, RunsInTurn m.host ((callWithin levels f args caller).run m)
      ((tracedWithin levels f args caller).run m.traced)) ∧
    ∀ o args, ConvertsFirst levels o args caller m :=
  ⟨fun f args => runsInTurn_of_since (mirrorsCalls_tracedWithin levels m.traced.host f args caller m.traced m
    (.of_free rfl (.nil m.host))), fun o args => convertsFirst levels o args caller m⟩

/-- The source of a table that declares a target when its name is read. -/
def declaringScript : String :=
  "return setmetatable(\x7b\x7d, \x7b__index = function(_, key)
  if key == 'name' then prj.target\x7bname = 'inner'\x7d return 'outer' end
end\x7d)"

/-- A descriptor runs, and has made this table. -/
def declaringMachine : Machine Session :=
  endOf ((evaluateSource declaringScript (bytes "table.lua") Memory.globals).run
    (.start (Memory.withProject ⟨"gcc"⟩ (Path.ofString "/w")) (Session.start.openFrame .project)))

/-- The inner call declares its target, and the outer one finds it. -/
theorem convertsFirst_declaringMachine :
    ConvertsFirst 3 .target [.table 7] outside declaringMachine ∧
      (endOf ((tracedLibrary (tracedWithin 3) (.request .target) [.table 7] outside).run
        declaringMachine.traced)).host.trace.filterMap Stage.request? = [.target ⟨"inner", .exe, []⟩] ∧
      (endOf ((runBuiltin (callWithin 3) (.request .target) [.table 7] outside).run
        declaringMachine)).host.target? = some ⟨"inner", .exe, []⟩ :=
  ⟨(reentrant_calls 3 outside declaringMachine).2 .target [.table 7], by decide +kernel⟩

end BuildComposition.Script
