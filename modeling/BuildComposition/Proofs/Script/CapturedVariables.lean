import BuildComposition.Proofs.Script.LiteralCode
import BuildComposition.Proofs.Script.QuietAssembly
import Mathlib.Data.List.Forall2

/-!
# Assignments to captured variables

An instruction gives a captured variable a value only if the source assigns to a variable of its name.  A
name that a source neither declares nor assigns to stands for the same variable in all its functions, and
none of them gives it a value.  The environment of a script is such a variable, unless the script says
otherwise.

## Main definitions

* `Function.bound`: the names that a function declares or assigns to
* `Code.Spares`: code that gives no value to some of the variables that it captures
* `Assembly.Drafts.Sound`: drafts that give no value to variables of certain names

## Main results

* `Assembly.Keeps.stmts`: statements that bind none of these names
* `Function.spares_of_assemble?`: the code of a function spares the environment, unless the function
  declares the name of the environment or assigns to it
-/

namespace BuildComposition.Script

/-! ## Names that are declared or assigned to -/

/-- The variable that an expression is. -/
def Expr.variable? : Expr → Option Bytes
  | .name n _ => some n
  | .suffixed e [] => e.variable?
  | .operations e [] => e.variable?
  | _ => none

mutual

/-- The names that the functions in an expression declare or assign to. -/
def Expr.bound : Expr → List Bytes
  | .function f => f.bound
  | .table fields => Field.boundIn fields
  | .paren e | .unary _ e _ => e.bound
  | .suffixed head rest => head.bound ++ Suffix.boundIn rest
  | .operations first rest => first.bound ++ Application.boundIn rest
  | .constant _ | .varargs _ | .name _ _ => []

/-- The names that the functions in some expressions declare or assign to. -/
def Expr.boundIn : List Expr → List Bytes
  | [] => []
  | e :: rest => e.bound ++ Expr.boundIn rest

/-- The names that the functions in accesses and calls declare or assign to. -/
def Suffix.boundIn : List Suffix → List Bytes
  | [] => []
  | .field _ _ :: rest => Suffix.boundIn rest
  | .index key _ :: rest => key.bound ++ Suffix.boundIn rest
  | .call args _ :: rest | .method _ _ args _ :: rest => Expr.boundIn args ++ Suffix.boundIn rest

/-- The names that the functions in right operands declare or assign to. -/
def Application.boundIn : List Application → List Bytes
  | [] => []
  | .mk _ right _ :: rest => right.bound ++ Application.boundIn rest

/-- The names that the functions in the fields of a table declare or assign to. -/
def Field.boundIn : List Field → List Bytes
  | [] => []
  | .item e :: rest => e.bound ++ Field.boundIn rest
  | .entry key value _ :: rest => key.bound ++ value.bound ++ Field.boundIn rest

/-- The names that a function declares or assigns to. -/
def Function.bound : Function → List Bytes
  | .mk params _ body _ => params ++ Stmt.boundIn body

/-- The names that a statement declares or assigns to. -/
def Stmt.bound : Stmt → List Bytes
  | .eval e => e.bound
  | .bind names values => names ++ Expr.boundIn values
  | .bindFunction n f => n :: f.bound
  | .assign lefts values => lefts.filterMap Expr.variable? ++ Expr.boundIn lefts ++ Expr.boundIn values
  | .branch clauses otherwise => Clause.boundIn clauses ++ Stmt.boundIn otherwise
  | .whileLoop condition body => condition.bound ++ Stmt.boundIn body
  | .repeatLoop body condition => Stmt.boundIn body ++ condition.bound
  | .rangeLoop counter start limit step body _ =>
    counter :: (start.bound ++ limit.bound ++ step.bound ++ Stmt.boundIn body)
  | .eachLoop names values body _ _ => names ++ Expr.boundIn values ++ Stmt.boundIn body
  | .block body => Stmt.boundIn body
  | .give values => Expr.boundIn values
  | .leave => []

/-- The names that statements declare or assign to. -/
def Stmt.boundIn : List Stmt → List Bytes
  | [] => []
  | s :: rest => s.bound ++ Stmt.boundIn rest

/-- The names that the clauses of a conditional statement declare or assign to. -/
def Clause.boundIn : List Clause → List Bytes
  | [] => []
  | .mk condition body :: rest => condition.bound ++ Stmt.boundIn body ++ Clause.boundIn rest

end

/-! ## Code -/

/-- The variable that a function captures under one number is captured by the function around it under
another one. -/
def Code.Inherits (f : Code) (i c : Nat) : Prop := f.captures[i]? = some (.cell c)

/-- The code gives no value to certain ones of the variables that it captures, and neither do the functions
inside, which capture them in turn. -/
inductive Code.Spares : (Nat → Prop) → Code → Prop
  | mk {P : Nat → Prop} {code : Code}
      (assigns : ∀ cell source, .assign cell source ∈ code.instructions →
        cell < code.captures.length ∧ ¬P cell)
      (inside : ∀ f ∈ code.functions, ∀ i c, f.Inherits i c → c < code.captures.length)
      (inner : ∀ f ∈ code.functions, Spares (fun i => ∃ c, f.Inherits i c ∧ P c) f) :
      Spares P code

/-- Fewer variables are spared, too. -/
theorem Code.Spares.anti {P Q : Nat → Prop} {code : Code} (h : code.Spares Q)
    (hPQ : ∀ c < code.captures.length, P c → Q c) : code.Spares P := by
  induction h generalizing P with
  | mk assigns inside inner ih =>
    refine .mk (fun c s hmem => ?_) inside fun f hf => ih f hf fun i _ hi => ?_
    · obtain ⟨hlt, hspared⟩ := assigns c s hmem
      exact ⟨hlt, fun hc => hspared (hPQ c hlt hc)⟩
    · obtain ⟨c, hinherits, hc⟩ := hi
      exact ⟨c, hinherits, hPQ c (inside f hf i c hinherits) hc⟩

namespace Assembly

/-! ## Drafts -/

/-- A function captures a variable of a name under a number. -/
def Draft.Captures (d : Draft) (c : Nat) (n : Bytes) : Prop := ∃ place, d.captures[c]? = some (n, place)

/-- A function captures a variable under a number whose name is among certain ones. -/
def Draft.Guards (N : Bytes → Prop) (d : Draft) (c : Nat) : Prop := ∃ n, d.Captures c n ∧ N n

/-- A function has no variables of certain names of its own, and gives those that it captures no value. -/
structure Draft.Sound (N : Bytes → Prop) (d : Draft) : Prop where
  locals : ∀ n ∈ d.locals, ¬N n
  assigns : ∀ cell source, .assign cell source ∈ d.instructions → ∃ n, d.Captures cell n ∧ ¬N n
  inside : ∀ f ∈ d.functions, ∀ i c, f.Inherits i c → c < d.captures.length
  inner : ∀ f ∈ d.functions, f.Spares fun i => ∃ c, f.Inherits i c ∧ d.Guards N c

/-- What a name stands for in a function: a variable of its own, or one that it captures. -/
def Draft.HasAt (N : Bytes → Prop) (d : Draft) (n : Bytes) : Capture → Prop
  | .register _ => ¬N n
  | .cell c => d.Captures c n

/-- What a function captures are variables of the function around it, under the same names.  The outermost
function captures the environment. -/
def Draft.Linked (N : Bytes → Prop) (d : Draft) : List Draft → Prop
  | [] => d.captures = [(environmentName, .cell 0)]
  | e :: _ => ∀ n place, (n, place) ∈ d.captures → e.HasAt N n place

/-- Functions inside one another, none of which has variables of certain names of its own or gives a
captured one a value. -/
def SoundIn (N : Bytes → Prop) : Draft → List Draft → Prop
  | d, [] => d.Sound N ∧ d.Linked N []
  | d, e :: rest => d.Sound N ∧ d.Linked N (e :: rest) ∧ SoundIn N e rest

/-- A function captures all that it did before. -/
def Draft.Grows (d e : Draft) : Prop := d.captures <+: e.captures

namespace Draft

variable {N : Bytes → Prop} {d e e' : Draft} {c : Nat} {n : Bytes}

theorem Captures.mono (h : d.Captures c n) (hgrows : d.Grows e) : e.Captures c n := by
  obtain ⟨place, hplace⟩ := h
  obtain ⟨more, hmore⟩ := hgrows
  have hlt := (List.getElem?_eq_some_iff.mp hplace).1
  exact ⟨place, by rw [← hmore, List.getElem?_append_left hlt, hplace]⟩

theorem Captures.lt (h : d.Captures c n) : c < d.captures.length := by
  obtain ⟨place, hplace⟩ := h
  exact (List.getElem?_eq_some_iff.mp hplace).1

theorem Captures.unique {n' : Bytes} (h : d.Captures c n) (h' : d.Captures c n') : n = n' := by
  obtain ⟨place, hplace⟩ := h
  obtain ⟨place', hplace'⟩ := h'
  rw [hplace] at hplace'
  cases hplace'
  rfl

theorem exists_captures (h : c < d.captures.length) : ∃ n, d.Captures c n :=
  ⟨_, _, List.getElem?_eq_getElem h⟩

/-- What is captured later has other numbers. -/
theorem Guards.of_grows (hgrows : d.Grows e) (hc : c < d.captures.length) (h : e.Guards N c) :
    d.Guards N c := by
  obtain ⟨n, hn, hN⟩ := h
  obtain ⟨m, hm⟩ := exists_captures hc
  exact ⟨m, hm, (hm.mono hgrows).unique hn ▸ hN⟩

/-- A sound function may capture more variables, as long as nothing else is added. -/
theorem Sound.grow (h : d.Sound N) (hgrows : d.Grows e) (hlocals : e.locals ⊆ d.locals)
    (hfunctions : e.functions = d.functions)
    (hassigns : ∀ cell source, .assign cell source ∈ e.instructions →
      .assign cell source ∈ d.instructions) : e.Sound N where
  locals n hn := h.locals n (hlocals hn)
  assigns cell source hmem := by
    obtain ⟨n, hn, hN⟩ := h.assigns cell source (hassigns cell source hmem)
    exact ⟨n, hn.mono hgrows, hN⟩
  inside f hf i c hinherits :=
    Nat.lt_of_lt_of_le (h.inside f (hfunctions ▸ hf) i c hinherits) hgrows.length_le
  inner f hf := by
    have hf : f ∈ d.functions := hfunctions ▸ hf
    refine (h.inner f hf).anti fun i _ hi => ?_
    obtain ⟨c, hinherits, hc⟩ := hi
    exact ⟨c, hinherits, hc.of_grows hgrows (h.inside f hf i c hinherits)⟩

theorem Quiet.grows (h : d.Quiet e) : d.Grows e := ⟨[], by rw [h.captures_eq, List.append_nil]⟩

theorem Sound.of_quiet (h : d.Sound N) (hq : d.Quiet e) : e.Sound N :=
  h.grow hq.grows hq.locals_subset hq.functions_eq hq.assigns

theorem HasAt.mono {place : Capture} (h : d.HasAt N n place) (hgrows : d.Grows e) :
    e.HasAt N n place := by
  cases place with
  | register r => exact h
  | cell c => exact Captures.mono h hgrows

/-- Links hold on if the function around captures more. -/
theorem Linked.grow {rest rest' : List Draft} (h : d.Linked N (e :: rest)) (hgrows : e.Grows e') :
    d.Linked N (e' :: rest') :=
  fun n place hmem => (h n place hmem).mono hgrows

/-- The code of a sound function. -/
theorem Sound.spares (h : d.Sound N) {P : Nat → Prop} (hP : ∀ c, P c → d.Guards N c) (params : Nat)
    (variadic : Bool) (line : Nat) : (d.code params variadic line).Spares P := by
  refine .mk (fun cell source hmem => ?_) (fun f hf i c hi => ?_) fun f hf => ?_
  · obtain ⟨n, hn, hN⟩ := h.assigns cell source hmem
    refine ⟨by simpa [Draft.code] using hn.lt, fun hcell => ?_⟩
    obtain ⟨m, hm, hNm⟩ := hP cell hcell
    exact hN (hm.unique hn ▸ hNm)
  · simpa [Draft.code] using h.inside f hf i c hi
  · refine (h.inner f hf).anti fun i _ hi => ?_
    obtain ⟨c, hinherits, hc⟩ := hi
    exact ⟨c, hinherits, hP c hc⟩

end Draft

/-- The functions that are assembled are sound. -/
def Drafts.Sound (N : Bytes → Prop) (d : Drafts) : Prop := SoundIn N d.current d.outer

/-- No function captures fewer variables than before. -/
def Drafts.Grows (d e : Drafts) : Prop :=
  List.Forall₂ Draft.Grows (d.current :: d.outer) (e.current :: e.outer)

section

variable {N : Bytes → Prop} {d e : Draft} {rest rest' : List Draft}

theorem grows_refl (ds : List Draft) : List.Forall₂ Draft.Grows ds ds :=
  List.forall₂_same.mpr fun _ _ => List.prefix_refl _

theorem grows_trans {ds es fs : List Draft} (h : List.Forall₂ Draft.Grows ds es)
    (h' : List.Forall₂ Draft.Grows es fs) : List.Forall₂ Draft.Grows ds fs := by
  induction h generalizing fs with
  | nil => exact h'
  | cons hd _ ih =>
    cases h' with
    | cons hd' h' => exact .cons (hd.trans hd') (ih h')

theorem SoundIn.current (h : SoundIn N d rest) : d.Sound N := by
  cases rest with
  | nil => exact h.1
  | cons _ _ => exact h.1

theorem SoundIn.linked (h : SoundIn N d rest) : d.Linked N rest := by
  cases rest with
  | nil => exact h.2
  | cons _ _ => exact h.2.1

/-- A function among the drafts is changed in a way that keeps it sound. -/
theorem SoundIn.replace (h : SoundIn N d rest) (hcaptures : e.captures = d.captures) (he : e.Sound N) :
    SoundIn N e rest := by
  have hlinked : e.Linked N rest := by
    have hlinked := h.linked
    cases rest with
    | nil => exact hcaptures.trans hlinked
    | cons a rest =>
      intro n place hmem
      exact hlinked n place (hcaptures ▸ hmem)
  cases rest with
  | nil => exact ⟨he, hlinked⟩
  | cons a rest => exact ⟨he, hlinked, h.2.2⟩

/-- What an inner function captures of the one around it has the same name there. -/
theorem SoundIn.captures_of_inherits (h : SoundIn N d (e :: rest)) {params : Nat} {variadic : Bool}
    {line i c : Nat} (hi : (d.code params variadic line).Inherits i c) :
    ∃ n, d.Captures i n ∧ e.Captures c n := by
  rw [Code.Inherits, Draft.code, List.getElem?_map] at hi
  obtain ⟨⟨n, place⟩, hplace, rfl⟩ := Option.map_eq_some_iff.mp hi
  exact ⟨n, ⟨_, hplace⟩, h.2.1 n _ (List.mem_of_getElem? hplace)⟩

/-- An inner function that is complete becomes part of the one around it. -/
theorem SoundIn.close (h : SoundIn N d (e :: rest)) (params : Nat) (variadic : Bool) (line : Nat) :
    SoundIn N { e with functions := e.functions.push (d.code params variadic line) } rest := by
  have he : e.Sound N := h.2.2.current
  refine h.2.2.replace rfl ⟨he.locals, he.assigns, fun f hf i c hi => ?_, fun f hf => ?_⟩
  · rcases Array.mem_push.mp hf with hf | rfl
    · exact he.inside f hf i c hi
    · obtain ⟨n, -, hn⟩ := h.captures_of_inherits hi
      exact hn.lt
  · rcases Array.mem_push.mp hf with hf | rfl
    · exact he.inner f hf
    · refine h.1.spares (fun i hi => ?_) params variadic line
      obtain ⟨c, hinherits, m, hm, hN⟩ := hi
      obtain ⟨n, hn, hn'⟩ := h.captures_of_inherits hinherits
      exact ⟨n, hn, hn'.unique hm ▸ hN⟩

/-! ## Names -/

theorem Draft.quiet_yield (d : Draft) (place : Capture) : d.Quiet (d.yield place) := by
  cases place <;> exact .of_eq rfl rfl rfl rfl

/-- One more variable of the function around is captured. -/
theorem SoundIn.capture {a : Draft} {n : Bytes} {place : Capture} (hd : d.Sound N)
    (hlinked : d.Linked N (a :: rest)) (ha : SoundIn N a rest') (hplace : a.HasAt N n place)
    (hcapture : d.capture? n place = some e) :
    SoundIn N e (a.yield place :: rest') ∧ d.Grows e ∧ e.Captures d.captures.length n := by
  unfold Draft.capture? at hcapture
  split at hcapture
  · cases hcapture
    have hgrows : d.Grows { d with captures := d.captures ++ [(n, place)] } := List.prefix_append _ _
    have hquiet := a.quiet_yield place
    refine ⟨⟨hd.grow hgrows (List.Subset.refl _) rfl fun _ _ h => h, fun m other hmem => ?_,
      ha.replace hquiet.captures_eq (ha.current.of_quiet hquiet)⟩, hgrows, place, by simp⟩
    rcases List.mem_append.mp hmem with hmem | hmem
    · exact (hlinked m other hmem).mono hquiet.grows
    · cases List.mem_singleton.mp hmem
      exact hplace.mono hquiet.grows
  · cases hcapture

theorem Draft.hasAt_of_known? (h : d.Sound N) {n : Bytes} {place : Capture}
    (hknown : d.known? n = some place) : d.HasAt N n place := by
  unfold known? at hknown
  split at hknown
  · next r hr =>
    cases hknown
    obtain ⟨i, hi, -⟩ := Option.map_eq_some_iff.mp hr
    obtain ⟨hlt, heq, -⟩ := List.findIdx?_eq_some_iff_getElem.mp hi
    exact h.locals n (beq_iff_eq.mp heq ▸ List.getElem_mem hlt)
  · obtain ⟨c, hc, rfl⟩ := Option.map_eq_some_iff.mp hknown
    obtain ⟨hlt, heq, -⟩ := List.findIdx?_eq_some_iff_getElem.mp hc
    refine ⟨d.captures[c].2, ?_⟩
    rw [List.getElem?_eq_getElem hlt, ← beq_iff_eq.mp heq]

/-- To find what a name stands for, a function may capture a variable of the function around. -/
theorem SoundIn.resolve {n : Bytes} {found : Option Capture} (h : SoundIn N d rest)
    (hrun : d.resolve n rest = some (found, e, rest')) :
    SoundIn N e rest' ∧ List.Forall₂ Draft.Grows (d :: rest) (e :: rest') ∧
      ∀ place, found = some place → e.HasAt N n place := by
  -- induction on the functions around: what the next one finds, the inner one captures
  induction rest generalizing d e found rest' with
  | nil =>
    cases hrun
    exact ⟨h, grows_refl _, fun place hplace => Draft.hasAt_of_known? h.current hplace⟩
  | cons a rest ih =>
    rw [Draft.resolve] at hrun
    split at hrun
    · next place hknown =>
      cases hrun
      refine ⟨h, grows_refl _, fun place hplace => ?_⟩
      cases hplace
      exact Draft.hasAt_of_known? h.current hknown
    · obtain ⟨⟨inner, a', rest''⟩, hinner, hrun⟩ := Option.bind_eq_some_iff.mp hrun
      obtain ⟨hsound, hgrows, hfound⟩ := ih h.2.2 hinner
      have ha : a.Grows a' := (List.forall₂_cons.mp hgrows).1
      cases inner with
      | none =>
        cases hrun
        exact ⟨⟨h.1, h.2.1.grow ha, hsound⟩, .cons (List.prefix_refl _) hgrows, nofun⟩
      | some place =>
        obtain ⟨d', hcapture, hrun⟩ := Option.bind_eq_some_iff.mp hrun
        cases hrun
        have hplace := hfound place rfl
        have hlinked : d.Linked N (a' :: rest) := h.2.1.grow ha
        obtain ⟨hsound, hgrows', hcaptures⟩ := hsound.capture h.1 hlinked hplace hcapture
        refine ⟨hsound, .cons hgrows' ?_, fun place hplace => ?_⟩
        · exact .cons (ha.trans (a'.quiet_yield _).grows) (List.forall₂_cons.mp hgrows).2
        · cases hplace
          exact hcaptures

end

/-! ## Actions that keep drafts sound -/

/-- From sound drafts of which something is known, the action leads to sound drafts, and what it gives
satisfies a condition there. -/
def Keeps {α : Type} (N : Bytes → Prop) (P : Drafts → Prop) (Q : α → Drafts → Prop) (act : Assembly α) :
    Prop :=
  ∀ d a e, act.run d = some (a, e) → d.Sound N → P d → e.Sound N ∧ d.Grows e ∧ Q a e

/-- An action of which nothing is needed but that it keeps drafts sound. -/
abbrev KeepsAny {α : Type} (N : Bytes → Prop) (act : Assembly α) : Prop :=
  Keeps N (fun _ => True) (fun _ _ => True) act

/-- A condition on drafts that holds on when functions capture more variables. -/
def Lasting (P : Drafts → Prop) : Prop := ∀ d e, d.Grows e → P d → P e

/-- If a place is a captured variable, the name of that is none of certain ones. -/
def Place.Free (N : Bytes → Prop) (place : Place) (d : Drafts) : Prop :=
  ∀ c, place = .cell c → ∃ n, d.current.Captures c n ∧ ¬N n

theorem Place.lasting_free (N : Bytes → Prop) (place : Place) : Lasting (place.Free N) := by
  intro d e hgrows h c hc
  obtain ⟨n, hn, hN⟩ := h c hc
  exact ⟨n, hn.mono (List.forall₂_cons.mp hgrows).1, hN⟩

theorem Place.lasting_allFree (N : Bytes → Prop) (places : List Place) :
    Lasting fun d => ∀ place ∈ places, place.Free N d :=
  fun d e hgrows h place hplace => Place.lasting_free N place d e hgrows (h place hplace)

/-- If an operand is a captured variable, it has a given name. -/
def Operand.Named (n : Option Bytes) (a : Operand) (d : Drafts) : Prop :=
  ∀ c, a.place = .cell c → ∃ m, n = some m ∧ d.current.Captures c m

theorem Operand.IsApart.named {a : Operand} (h : a.IsApart) {n : Option Bytes} {d : Drafts} : a.Named n d :=
  fun c hc => absurd hc (h c)

theorem Operand.lasting_named (n : Option Bytes) (a : Operand) : Lasting (a.Named n) := by
  intro d e hgrows h c hc
  obtain ⟨m, hm, hcaptures⟩ := h c hc
  exact ⟨m, hm, hcaptures.mono (List.forall₂_cons.mp hgrows).1⟩

namespace Keeps

variable {α β : Type} {N : Bytes → Prop} {P U : Drafts → Prop} {Q V : α → Drafts → Prop}
  {R : β → Drafts → Prop}

theorem of_quiet {S : α → Prop} {x : Assembly α} (hx : Quiet S x) :
    Keeps N (fun _ => True) (fun a _ => S a) x := by
  intro d a e hrun hd _
  obtain ⟨hquiet, ha⟩ := hx d a e hrun
  have hsound : SoundIn N e.current d.outer :=
    SoundIn.replace hd hquiet.current.captures_eq (hd.current.of_quiet hquiet.current)
  refine ⟨?_, ?_, ha⟩
  · rw [Drafts.Sound, hquiet.outer_eq]
    exact hsound
  · rw [Drafts.Grows, hquiet.outer_eq]
    exact .cons hquiet.current.grows (grows_refl _)

theorem quietly {x : Assembly α} (hx : QuietAny x) : KeepsAny N x := of_quiet hx

theorem pure {a : α} (h : ∀ d, P d → Q a d) : Keeps N P Q (Pure.pure a : Assembly α) := by
  intro d b e hrun hd hP
  cases hrun
  exact ⟨hd, grows_refl _, h d hP⟩

theorem bind {x : Assembly α} {f : α → Assembly β} (hx : Keeps N P Q x)
    (hf : ∀ a, Keeps N (Q a) R (f a)) : Keeps N P R (x >>= f) := by
  intro d b e hrun hd hP
  rw [StateT.run_bind] at hrun
  obtain ⟨⟨a, mid⟩, hfirst, hrest⟩ := Option.bind_eq_some_iff.mp hrun
  obtain ⟨hmid, hgrows, ha⟩ := hx d a mid hfirst hd hP
  obtain ⟨he, hgrows', hb⟩ := hf a mid b e hrest hmid ha
  exact ⟨he, grows_trans hgrows hgrows', hb⟩

theorem mono {x : Assembly α} (hx : Keeps N P Q x) (hP : ∀ d, U d → P d) (hQ : ∀ a d, Q a d → V a d) :
    Keeps N U V x := by
  intro d a e hrun hd hPd
  obtain ⟨he, hgrows, ha⟩ := hx d a e hrun hd (hP d hPd)
  exact ⟨he, hgrows, hQ a e ha⟩

/-- What is known of the drafts and lasts is still known after an action. -/
theorem next {x : Assembly α} {f : α → Assembly β} (hx : Keeps N U Q x) (h : ∀ d, P d → U d)
    (hP : Lasting P) (hf : ∀ a, Keeps N P R (f a)) : Keeps N P R (x >>= f) := by
  refine bind (Q := fun _ => P) (fun d a e hrun hd hPd => ?_) hf
  obtain ⟨he, hgrows, -⟩ := hx d a e hrun hd (h d hPd)
  exact ⟨he, hgrows, hP d e hgrows hPd⟩

/-- What is known of the drafts and lasts adds to what is known of the result. -/
theorem frame {x : Assembly α} (hx : Keeps N P Q x) (h : ∀ d, U d → P d) (hU : Lasting U)
    (hQ : ∀ a d, Q a d → U d → V a d) : Keeps N U V x := by
  intro d a e hrun hd hPd
  obtain ⟨he, hgrows, ha⟩ := hx d a e hrun hd (h d hPd)
  exact ⟨he, hgrows, hQ a e ha (hU d e hgrows hPd)⟩

theorem any {x : Assembly α} (hx : Keeps N (fun _ => True) Q x) : KeepsAny N x :=
  hx.mono (fun _ h => h) fun _ _ _ => trivial

/-- What the first action gives does not matter. -/
theorem andThen {x : Assembly α} {y : Assembly β} (hx : KeepsAny N x) (hy : Keeps N (fun _ => True) R y) :
    Keeps N (fun _ => True) R (x >>= fun _ => y) :=
  bind hx fun _ => hy

theorem discard {x : Assembly α} (hx : Keeps N P Q x) :
    Keeps N P (fun _ _ => True) (Functor.discard x) :=
  bind hx fun _ => pure fun _ _ => trivial

theorem failure : Keeps N P Q (Alternative.failure : Assembly α) := by
  intro d a e hrun
  cases hrun

/-! ## Variables -/

theorem run_resolve (n : Bytes) (d : Drafts) : (Assembly.resolve n).run d =
    (d.current.resolve n d.outer).map fun r => (r.1, ⟨r.2.1, r.2.2⟩) := by
  show ((d.current.resolve n d.outer).bind fun r => some (r, d)).bind
    (fun p => some (p.1.1, Drafts.mk p.1.2.1 p.1.2.2)) = _
  cases d.current.resolve n d.outer <;> rfl

/-- A captured variable that a name stands for has that name. -/
theorem resolve (n : Bytes) :
    Keeps N (fun _ => True) (fun found d => ∀ c, found = some (.cell c) → d.current.Captures c n)
      (Assembly.resolve n) := by
  intro d a e hrun hd _
  rw [run_resolve] at hrun
  obtain ⟨⟨found, current, outer⟩, hresolve, heq⟩ := Option.map_eq_some_iff.mp hrun
  cases heq
  obtain ⟨hsound, hgrows, hfound⟩ := SoundIn.resolve hd hresolve
  exact ⟨hsound, hgrows, fun c hc => hfound _ hc⟩

/-- The current function is changed and stays sound. -/
theorem change {f : Draft → Draft} (hcaptures : ∀ d, (f d).captures = d.captures)
    (hf : ∀ d : Draft, d.Sound N → (f d).Sound N) : KeepsAny N (Assembly.change f) := by
  intro d a e hrun hd _
  cases hrun
  have hgrows : d.current.Grows (f d.current) := ⟨[], by rw [hcaptures, List.append_nil]⟩
  exact ⟨hd.replace (hcaptures _) (hf _ hd.current), .cons hgrows (grows_refl _), trivial⟩

/-- Variables come into scope. -/
theorem declare {names : List Bytes} (h : ∀ n ∈ names, ¬N n) : KeepsAny N (Assembly.declare names) := by
  refine bind (quietly (.part _)) fun count => ?_
  dsimp only
  split
  · exact failure
  · refine change (fun _ => rfl) fun d hd => ⟨fun n hn => ?_, hd.assigns, hd.inside, hd.inner⟩
    rcases List.mem_append.mp hn with hn | hn
    · exact h n (List.mem_reverse.mp hn)
    · exact hd.locals n hn

/-- A name that is no variable is a field of the environment. -/
theorem named (n : Bytes) (line : Nat) :
    Keeps N (fun _ => True) (fun a d => ∀ c, a.place = .cell c → d.current.Captures c n)
      (Assembly.named n line) := by
  refine bind (resolve n) fun found => ?_
  split
  · exact pure fun _ _ => nofun
  · refine pure fun d hd c hc => ?_
    cases hc
    exact hd _ rfl
  · refine (bind (P := fun _ => True) (resolve environmentName).any fun environment => ?_).mono
      (fun _ _ => trivial) fun _ _ h => h
    have hfield : ∀ e : Operand, Keeps N (fun _ => True)
        (fun a d => ∀ c, a.place = .cell c → d.current.Captures c n) (do
          Assembly.access (← Assembly.toAnyOrCell e) (.plain (.constant (.str n))) line) :=
      fun e => (of_quiet (.bind (.toAnyOrCell e) fun _ _ => .access _ _ line)).mono (fun _ h => h)
        fun a _ ha c hc => absurd hc (ha c)
    split
    · exact hfield (.plain (.variable _))
    · exact hfield (.plain (.cell _))
    · exact failure

/-! ## Assignments -/

/-- A variable is given a value whose name is none of certain ones. -/
theorem emitAssign (c r : Nat) :
    Keeps N (fun d => ∃ n, d.current.Captures c n ∧ ¬N n) (fun _ _ => True)
      (Assembly.emit (.assign c r)) := by
  intro d a e hrun hd hc
  cases hrun
  refine ⟨hd.replace rfl ⟨hd.current.locals, fun cell source hmem => ?_, hd.current.inside,
    hd.current.inner⟩, .cons (List.prefix_refl _) (grows_refl _), trivial⟩
  rcases Array.mem_push.mp hmem with hmem | heq
  · exact hd.current.assigns cell source hmem
  · cases heq
    exact hc

theorem store (target : Place) (e : Operand) :
    Keeps N (target.Free N) (fun _ _ => True) (Assembly.store target e) := by
  have hquiet : ∀ {act : Assembly Unit}, QuietAny act → Keeps N (target.Free N) (fun _ _ => True) act :=
    fun h => (quietly h).mono (fun _ _ => trivial) fun _ _ h => h
  have hset : ∀ line object key, QuietAny (do
      let value ← Assembly.toArg e
      Functor.discard (Assembly.emitAt line (.set object key value))
      Assembly.freeArg value) :=
    fun line object key => .bind (.toArg e) fun value _ =>
      (Quiet.emitAt line (by nofun)).discard.andThen (.freeArg value)
  unfold Assembly.store
  split
  · exact hquiet (.andThen (.free e) (.finishIn _ e))
  · next c =>
    refine next (quietly (.toAny e)) (fun _ _ => trivial) (Place.lasting_free N _) fun r => ?_
    refine bind (Q := fun _ _ => True) ?_ fun _ => quietly (.release r)
    exact (emitAssign c r).discard.mono (fun d (h : (Place.cell c).Free N d) => h c rfl) fun _ _ h => h
  · exact hquiet (hset _ _ _)
  · exact hquiet (hset _ _ _)
  · exact hquiet (.pure trivial)

/-- Several places are given values. -/
theorem storeAll (places : List Place) :
    Keeps N (fun d => ∀ place ∈ places, place.Free N d) (fun _ _ => True) (Assembly.storeAll places) := by
  induction places with
  | nil => exact pure fun _ _ => trivial
  | cons target earlier ih =>
    have hlasting := Place.lasting_allFree N (target :: earlier)
    refine next (quietly (.part _)) (fun _ _ => trivial) hlasting fun free => ?_
    refine next (store target _) (fun d h => h target List.mem_cons_self) hlasting fun _ => ?_
    exact ih.mono (fun d h place hplace => h place (List.mem_cons_of_mem _ hplace)) fun _ _ h => h

/-! ## Functions -/

/-- A function inside another one is assembled. -/
theorem inFunction {body : Assembly Unit} (h : KeepsAny N body) (params : Nat) (variadic : Bool)
    (line : Nat) :
    KeepsAny N (do
      Assembly.beginFunction
      body
      Assembly.endFunction params variadic line) := by
  intro d a e hrun hd _
  rw [StateT.run_bind] at hrun
  obtain ⟨⟨⟨⟩, begun⟩, hbegin, hrun⟩ := Option.bind_eq_some_iff.mp hrun
  cases hbegin
  rw [StateT.run_bind] at hrun
  obtain ⟨⟨⟨⟩, inner⟩, hbody, hrun⟩ := Option.bind_eq_some_iff.mp hrun
  have hbegun : Drafts.Sound N ⟨.empty, d.current :: d.outer⟩ :=
    ⟨⟨nofun, by simp [Draft.empty], by simp [Draft.empty], by simp [Draft.empty]⟩, nofun, hd⟩
  obtain ⟨hinner, hgrows, -⟩ := h _ _ _ hbody hbegun trivial
  obtain ⟨current, outer⟩ := inner
  -- as many functions are around afterwards, so that one is there to take the code
  have houter := (List.forall₂_cons.mp hgrows).2
  cases houter with
  | cons hcurrent hrest =>
    cases hrun
    exact ⟨hinner.close params variadic line, .cons hcurrent hrest, trivial⟩

/-- The body of a function comes after its parameters. -/
theorem functionBody {params : List Bytes} {body : List Stmt} (hparams : ∀ n ∈ params, ¬N n)
    (hbody : KeepsAny N (Assembly.stmts body)) :
    KeepsAny N (do
      Assembly.declare params
      Assembly.reserve params.length
      Assembly.stmts body
      Functor.discard (Assembly.emit (.give (← Assembly.part (·.locals.length)) (some 0)))) :=
  (declare hparams).andThen <| (quietly (.reserve _)).andThen <| hbody.andThen <|
    quietly (.bind (.part _) fun _ _ => .discard (.emit (by nofun)))

/-! ## Terms -/

theorem apart {x : Assembly Operand} (h : Quiet Operand.IsApart x) :
    Keeps N (fun _ => True) (fun a _ => a.IsApart) x := of_quiet h

/-- What goes on from an operand that is no captured variable does not end with one. -/
theorem goOn {x : Assembly Operand} {f : Operand → Assembly Operand} {unchanged : Prop} {S : Operand → Prop}
    (hx : Keeps N (fun _ => True) (fun a _ => a.IsApart) x)
    (hf : ∀ a, Keeps N (fun _ => True) (fun b _ => b.IsApart ∨ unchanged ∧ b = a) (f a)) :
    Keeps N (fun _ => True) (fun b _ => b.IsApart ∨ S b) (x >>= f) := by
  refine bind hx fun a => (hf a).frame (fun _ _ => trivial) (fun _ _ _ h => h) fun b d hb ha => ?_
  rcases hb with hb | ⟨-, rfl⟩
  · exact .inl hb
  · exact .inl ha

/-- The value of a term is put into the next register. -/
theorem put {x : Assembly Operand} {k : Assembly α} (hx : KeepsAny N x)
    (hk : Keeps N (fun _ => True) Q k) :
    Keeps N (fun _ => True) Q (x >>= fun a => Functor.discard (Assembly.toNext a) >>= fun _ => k) :=
  bind hx fun a => (quietly (.discard (.toNext a))).andThen hk

/-- A pending item is put into its register, and the gathered items into the table if there are enough. -/
theorem gather (table : Nat) (pending : Option Operand) (gathered stored : Nat)
    {k : Nat × Nat → Assembly Unit} (hk : ∀ counts, KeepsAny N (k counts)) :
    KeepsAny N (match pending with
      | none => do k (← Pure.pure (gathered, stored))
      | some e => do
        Functor.discard (Assembly.toNext e)
        if gathered = itemsAtOnce then
          Assembly.flushItems table (some gathered) stored
          k (← Pure.pure (0, stored + gathered))
        else k (← Pure.pure (gathered, stored))) := by
  cases pending with
  | none => exact hk _
  | some e =>
    refine (quietly (.discard (.toNext e))).andThen ?_
    split
    · exact (quietly (.flushItems _ _ _)).andThen (hk _)
    · exact hk _

/-- A place is given a value that a protected place may stand for. -/
theorem protectTargets (earlier : List Place) (target : Place) :
    Keeps N (fun d => target.Free N d ∧ ∀ place ∈ earlier, place.Free N d)
      (fun places d => ∀ place ∈ target :: places, place.Free N d)
      (Assembly.protectTargets earlier target) := by
  have hlasting : Lasting fun d => target.Free N d ∧ ∀ place ∈ earlier, place.Free N d :=
    fun d e hgrows h => ⟨Place.lasting_free N _ d e hgrows h.1, Place.lasting_allFree N _ d e hgrows h.2⟩
  refine (of_quiet (Quiet.protectTargets earlier target)).frame (fun _ _ => trivial) hlasting ?_
  intro places d hplaces h place hplace c hc
  rcases List.mem_cons.mp hplace with rfl | hplace
  · exact h.1 c hc
  · exact h.2 _ (hplaces c (hc ▸ hplace)) c rfl

-- The names that loops keep their state under are none of the names in question.
variable (hN : ∀ n ∈ hidden 4, ¬N n)

include hN

set_option linter.unusedSectionVars false

mutual

/-- An expression is a captured variable only if it is the name of one. -/
theorem expr : (e : Expr) → (∀ n ∈ e.bound, ¬N n) →
    Keeps N (fun _ => True) (fun a => a.Named e.variable?) (Assembly.expr e)
  | .constant v, _ => pure fun _ _ => nofun
  | .varargs line, _ => by
    refine bind (quietly (.emitAt line (by nofun))) fun _ => ?_
    exact pure fun _ _ => nofun
  | .function f, h => (function f h).mono (fun _ h => h) fun _ _ ha => ha.named
  | .table fs, h => by
    unfold Assembly.expr
    split
    refine bind (quietly (.part _)) fun r => andThen (quietly (.discard (.emit (by nofun)))) ?_
    exact (quietly (.reserve 1)).andThen ((fields r none 0 0 fs h).andThen (pure fun _ _ => nofun))
  | .name n line, _ => (named n line).mono (fun _ h => h) fun a d ha c hc => ⟨n, rfl, ha c hc⟩
  | .paren e, h => bind (expr e h).any fun a => (apart (.discharge a)).mono (fun _ h => h)
      fun _ _ ha => ha.named
  | .suffixed head rest, h => by
    obtain ⟨hhead, hrest⟩ := List.forall_mem_append.mp h
    refine bind (expr head hhead) fun a => ?_
    refine (suffixes a rest hrest).frame (fun _ _ => trivial) (Operand.lasting_named _ a) fun b d hb ha => ?_
    rcases hb with hb | ⟨rfl, rfl⟩
    · exact hb.named
    · exact ha
  | .unary op e line, h => bind (expr e h).any fun a => (apart (.applyUnary op line a)).mono (fun _ h => h)
      fun _ _ ha => ha.named
  | .operations first rest, h => by
    obtain ⟨hfirst, hrest⟩ := List.forall_mem_append.mp h
    refine bind (expr first hfirst) fun a => ?_
    refine (operations a rest hrest).frame (fun _ _ => trivial) (Operand.lasting_named _ a)
      fun b d hb ha => ?_
    rcases hb with hb | ⟨rfl, rfl⟩
    · exact hb.named
    · exact ha

/-- Accesses and calls in a row do not end with a captured variable, unless there are none. -/
theorem suffixes (e : Operand) : (rest : List Suffix) → (∀ n ∈ Suffix.boundIn rest, ¬N n) →
    Keeps N (fun _ => True) (fun a _ => a.IsApart ∨ rest = [] ∧ a = e) (Assembly.suffixes e rest)
  | [], _ => pure fun _ _ => .inr ⟨rfl, rfl⟩
  | .field n line :: rest, h => goOn (apart (.fieldOf e n line)) fun a => suffixes a rest h
  | .index key line :: rest, h => by
    obtain ⟨hkey, hrest⟩ := List.forall_mem_append.mp h
    refine bind (quietly (.toAnyOrCell e)) fun object => bind (expr key hkey).any fun key => ?_
    refine bind (quietly (.toValue key)) fun key => ?_
    exact goOn (apart (.access object key line)) fun a => suffixes a rest hrest
  | .call args line :: rest, h => by
    obtain ⟨hargs, hrest⟩ := List.forall_mem_append.mp h
    refine bind (quietly (.toNext e)) fun base => bind (exprs args hargs) fun last => ?_
    exact goOn (apart (.callOf base last line)) fun a => suffixes a rest hrest
  | .method n nameLine args line :: rest, h => by
    obtain ⟨hargs, hrest⟩ := List.forall_mem_append.mp h
    refine bind (quietly (.methodOf e n nameLine)) fun base => bind (exprs args hargs) fun last => ?_
    exact goOn (apart (.callOf base last line)) fun a => suffixes a rest hrest

/-- Operators in a row do not end with a captured variable, unless there are none. -/
theorem operations (left : Operand) : (rest : List Application) →
    (∀ n ∈ Application.boundIn rest, ¬N n) →
    Keeps N (fun _ => True) (fun a _ => a.IsApart ∨ rest = [] ∧ a = left) (Assembly.operations left rest)
  | [], _ => pure fun _ _ => .inr ⟨rfl, rfl⟩
  | .mk op right line :: rest, h => by
    obtain ⟨hright, hrest⟩ := List.forall_mem_append.mp h
    refine bind (quietly (.prepare op left)) fun left => bind (expr right hright).any fun right => ?_
    exact goOn (apart (.complete op line left right)) fun a => operations a rest hrest

theorem exprs : (es : List Expr) → (∀ n ∈ Expr.boundIn es, ¬N n) → KeepsAny N (Assembly.exprs es)
  | [], _ => pure fun _ _ => trivial
  | [e], h => bind (expr e (List.forall_mem_append.mp h).1).any fun _ => pure fun _ _ => trivial
  | e :: e' :: rest, h => by
    obtain ⟨he, hrest⟩ := List.forall_mem_append.mp h
    refine bind (expr e he).any fun a => ?_
    exact (quietly (.discard (.toNext a))).andThen (exprs (e' :: rest) hrest)

theorem fields (table : Nat) (pending : Option Operand) (gathered stored : Nat) : (fs : List Field) →
    (∀ n ∈ Field.boundIn fs, ¬N n) → KeepsAny N (Assembly.fields table pending gathered stored fs)
  | [], _ => by
    rw [Assembly.fields.eq_def]
    refine quietly (.ite (.pure trivial) ?_)
    cases pending with
    | none => exact .flushItems _ _ _
    | some e =>
      refine .ite ?_ ?_
      · exact .andThen (.setResults e none) (.flushItems _ _ _)
      · exact .andThen (.discard (.toNext e)) (.flushItems _ _ _)
  | .item e :: rest, h => by
    obtain ⟨he, hrest⟩ := List.forall_mem_append.mp h
    rw [Assembly.fields.eq_def]
    refine gather table pending gathered stored fun counts => ?_
    exact bind (expr e he).any fun a => fields table (some a) _ _ rest hrest
  | .entry key value line :: rest, h => by
    obtain ⟨hentry, hrest⟩ := List.forall_mem_append.mp h
    obtain ⟨hkey, hvalue⟩ := List.forall_mem_append.mp hentry
    rw [Assembly.fields.eq_def]
    refine gather table pending gathered stored fun counts => ?_
    refine bind (quietly (.part _)) fun free => bind (expr key hkey).any fun key => ?_
    refine bind (quietly (.toValue key)) fun key => bind (apart (.access _ key line)) fun target => ?_
    refine next (expr value hvalue) (fun _ _ => trivial) (fun _ _ _ h => h) fun a => ?_
    -- a field is no captured variable
    refine bind ((store target.place a).mono (fun d htarget c hc => absurd hc (htarget c)) fun _ _ h => h)
      fun _ => ?_
    exact andThen (quietly (.change fun _ => .of_eq rfl rfl rfl rfl)) (fields table none _ _ rest hrest)

/-- A function inside the current one is no captured variable. -/
theorem function : (f : Function) → (∀ n ∈ f.bound, ¬N n) →
    Keeps N (fun _ => True) (fun a _ => a.IsApart) (Assembly.function f)
  | .mk params variadic body line, h => by
    obtain ⟨hparams, hbody⟩ := List.forall_mem_append.mp h
    have hinner := functionBody hparams (stmts body hbody)
    have hrest : ∀ number, Keeps N (fun _ => True) (fun (a : Operand) _ => a.IsApart) (do
        let place ← Assembly.emit (.closure 0 number)
        return Operand.plain (.register (← Assembly.toNext (.plain (.pending place))))) :=
      fun number => bind (quietly (.emit (by nofun))) fun place =>
        bind (quietly (.toNext _)) fun _ => pure fun _ _ => nofun
    have hwhole := bind (inFunction hinner params.length variadic line) hrest
    simp only [bind_assoc] at hwhole
    exact hwhole

theorem targets (earlier : List Place) : (lefts : List Expr) →
    (∀ n ∈ lefts.filterMap Expr.variable?, ¬N n) → (∀ n ∈ Expr.boundIn lefts, ¬N n) →
    Keeps N (fun d => ∀ place ∈ earlier, place.Free N d)
      (fun places d => ∀ place ∈ places, place.Free N d) (Assembly.targets earlier lefts)
  | [], _, _ => pure fun _ h => h
  | e :: rest, hnames, h => by
    obtain ⟨he, hrest⟩ := List.forall_mem_append.mp h
    have hnames : (∀ n, e.variable? = some n → ¬N n) ∧ ∀ n ∈ rest.filterMap Expr.variable?, ¬N n := by
      constructor
      · intro n hn
        exact hnames n (List.mem_filterMap.mpr ⟨e, List.mem_cons_self, hn⟩)
      · intro n hn
        obtain ⟨e', he', hn⟩ := List.mem_filterMap.mp hn
        exact hnames n (List.mem_filterMap.mpr ⟨e', List.mem_cons_of_mem e he', hn⟩)
    have htarget := (expr e he).frame (fun _ _ => trivial) (Place.lasting_allFree N earlier)
      (V := fun a d => a.place.Free N d ∧ ∀ place ∈ earlier, place.Free N d) fun a d ha hearlier => by
        refine ⟨fun c hc => ?_, hearlier⟩
        obtain ⟨n, hn, hcaptures⟩ := ha c hc
        exact ⟨n, hcaptures, hnames.1 n hn⟩
    refine bind htarget fun a => bind (protectTargets earlier a.place) fun earlier => ?_
    exact targets (a.place :: earlier) rest hnames.2 hrest

/-- A statement that binds none of the names. -/
theorem stmt : (s : Stmt) → (∀ n ∈ s.bound, ¬N n) → KeepsAny N (Assembly.stmt s)
  | .eval e, h => bind (expr e h).any fun a => quietly (.setResults a _)
  | .bind names values, h => by
    obtain ⟨hnames, hvalues⟩ := List.forall_mem_append.mp h
    exact bind (exprs values hvalues) fun last => (quietly (.adjust _ _ last)).andThen (declare hnames)
  | .bindFunction n f, h => by
    obtain ⟨hn, hf⟩ := List.forall_mem_cons.mp h
    exact (declare (by simpa using hn)).andThen (function f hf).any.discard
  | .assign lefts values, h => by
    obtain ⟨hlefts, hvalues⟩ := List.forall_mem_append.mp h
    obtain ⟨hnames, hlefts⟩ := List.forall_mem_append.mp hlefts
    have htargets := (targets [] lefts hnames hlefts).mono (U := fun _ => True)
      (fun _ _ => List.forall_mem_nil _) fun _ _ h => h
    refine bind htargets fun places => ?_
    have hlasting := Place.lasting_allFree N places
    refine next (exprs values hvalues) (fun _ _ => trivial) hlasting fun last => ?_
    split
    · next target earlier e =>
      split
      · refine next (of_quiet (.single e)) (fun _ _ => trivial) hlasting fun a => ?_
        refine next (store target a) (fun d hfree => hfree target List.mem_cons_self) hlasting fun _ => ?_
        exact (storeAll earlier).mono
          (fun d hfree place hplace => hfree place (List.mem_cons_of_mem _ hplace)) fun _ _ h => h
      · exact next (quietly (.adjust _ _ _)) (fun _ _ => trivial) hlasting fun _ => storeAll _
    · exact failure
  | .branch cs otherwise, h => by
    obtain ⟨hcs, hotherwise⟩ := List.forall_mem_append.mp h
    exact bind (clauses [] cs hcs) fun exits => (quietly (.enter false)).andThen <|
      (stmts otherwise hotherwise).andThen <| (quietly .leave).andThen (quietly (.patchHere exits))
  | .whileLoop condition body, h => by
    obtain ⟨hcondition, hbody⟩ := List.forall_mem_append.mp h
    refine bind (quietly .label) fun start => bind (expr condition hcondition).any fun a => ?_
    refine bind (quietly (.goIfTrue a)) fun exits => ?_
    refine (quietly (.enter true)).andThen ((quietly (.enter false)).andThen ?_)
    refine (stmts body hbody).andThen ((quietly .leave).andThen ?_)
    exact (quietly (.discard (.emit (by nofun)))).andThen
      ((quietly .leave).andThen (quietly (.patchHere exits)))
  | .repeatLoop body condition, h => by
    obtain ⟨hbody, hcondition⟩ := List.forall_mem_append.mp h
    refine bind (quietly .label) fun start => ?_
    refine (quietly (.enter true)).andThen ((quietly (.enter false)).andThen ?_)
    refine (stmts body hbody).andThen (bind (expr condition hcondition).any fun a => ?_)
    refine bind (quietly (.goIfTrue a)) fun again => bind (quietly .currentBlock) fun b => ?_
    refine (quietly .leave).andThen (quietly ?_)
    refine .ite (.bind (.emit (by nofun)) fun exit _ => ?_) (.andThen (.patch start again) .leave)
    refine .andThen (.patchHere again) (.andThen (.discard (.emit (by nofun))) ?_)
    exact .bind (.emit (by nofun)) fun jump _ => .andThen (.patch start _) (.andThen (.patchHere _) .leave)
  | .rangeLoop counter start limit step body line, h => by
    obtain ⟨hcounter, h⟩ := List.forall_mem_cons.mp h
    obtain ⟨h, hbody⟩ := List.forall_mem_append.mp h
    obtain ⟨h, hstep⟩ := List.forall_mem_append.mp h
    obtain ⟨hstart, hlimit⟩ := List.forall_mem_append.mp h
    have hstate : ∀ n ∈ hidden 3, ¬N n := fun n hn => hN n (List.mem_of_mem_tail (a := n) hn)
    refine (quietly (.enter true)).andThen (bind (quietly (.part _)) fun base => ?_)
    refine put (expr start hstart).any (put (expr limit hlimit).any (put (expr step hstep).any ?_))
    refine (declare hstate).andThen (bind (quietly (.emitAt line (by nofun))) fun first => ?_)
    refine (quietly (.enter false)).andThen ((declare (by simpa using hcounter)).andThen ?_)
    refine (quietly (.reserve 1)).andThen ((quietly (.enter false)).andThen ?_)
    refine (stmts body hbody).andThen ((quietly .leave).andThen ((quietly .leave).andThen ?_))
    refine (quietly (.discard .label)).andThen ((quietly (.discard (.emit (by nofun)))).andThen ?_)
    exact (quietly (.patchHere _)).andThen (quietly .leave)
  | .eachLoop names values body callLine line, h => by
    obtain ⟨h, hbody⟩ := List.forall_mem_append.mp h
    obtain ⟨hnames, hvalues⟩ := List.forall_mem_append.mp h
    refine (quietly (.enter true)).andThen (bind (quietly (.part _)) fun base => ?_)
    refine bind (exprs values hvalues) fun last => (quietly (.adjust 4 _ last)).andThen ?_
    refine (declare hN).andThen ((quietly (.changeBlock _)).andThen ((quietly (.require 3)).andThen ?_))
    refine bind (quietly (.emitAt line (by nofun))) fun first => (quietly (.enter false)).andThen ?_
    refine (declare hnames).andThen ((quietly (.reserve _)).andThen ((quietly (.enter false)).andThen ?_))
    refine (stmts body hbody).andThen ((quietly .leave).andThen ((quietly .leave).andThen ?_))
    refine (quietly (.patchHere _)).andThen ((quietly (.discard (.emitAt callLine (by nofun)))).andThen ?_)
    exact (quietly (.discard (.emit (by nofun)))).andThen (quietly .leave)
  | .block body, h => (quietly (.enter false)).andThen ((stmts body h).andThen (quietly .leave))
  | .give values, h => by
    refine bind (quietly (.part _)) fun first => bind (exprs values h) fun last => quietly ?_
    split
    · exact .discard (.emit (by nofun))
    · next e =>
      refine .ite ?_ ?_
      · refine .andThen (.setResults e none) (.bind .currentBlock fun block _ => ?_)
        split
        · exact .skipIf (.alter _ fun _ _ _ h => Instruction.eq_assign_of_asTail h)
            fun _ => .discard (.emit (by nofun))
        · exact .pureThen (.discard (.emit (by nofun)))
      · split
        · exact .bind (.toAny e) fun _ _ => .discard (.emit (by nofun))
        · exact .andThen (.discard (.toNext e)) (.discard (.emit (by nofun)))
  | .leave, _ => bind (quietly (.emit (by nofun))) fun _ => quietly (.change fun _ => .of_eq rfl rfl rfl rfl)

theorem stmts : (ss : List Stmt) → (∀ n ∈ Stmt.boundIn ss, ¬N n) → KeepsAny N (Assembly.stmts ss)
  | [], _ => pure fun _ _ => trivial
  | s :: rest, h => by
    obtain ⟨hs, hrest⟩ := List.forall_mem_append.mp h
    exact (stmt s hs).andThen ((quietly .releaseAll).andThen (stmts rest hrest))

theorem clauses (exits : List Nat) : (cs : List Clause) → (∀ n ∈ Clause.boundIn cs, ¬N n) →
    KeepsAny N (Assembly.clauses exits cs)
  | [], _ => pure fun _ _ => trivial
  | .mk condition body :: rest, h => by
    obtain ⟨hclause, hrest⟩ := List.forall_mem_append.mp h
    obtain ⟨hcondition, hbody⟩ := List.forall_mem_append.mp hclause
    refine bind (expr condition hcondition).any fun a => bind (quietly (.goIfTrue a)) fun skip => ?_
    refine (quietly (.enter false)).andThen ((stmts body hbody).andThen ((quietly .leave).andThen ?_))
    refine bind (quietly (.emit (by nofun))) fun exit => (quietly (.patchHere skip)).andThen ?_
    exact clauses (exit :: exits) rest hrest

end

end Keeps

end Assembly

open Assembly in
/-- The code of a function that stands in no other one captures the environment alone.  If the function binds
none of certain names, and the name of the environment is among them, then the code spares the environment. -/
theorem Function.spares_of_assemble? {f : Function} {code : Code} (h : f.assemble? = some code)
    {N : Bytes → Prop} (hN : ∀ n ∈ hidden 4, ¬N n) (hf : ∀ n ∈ f.bound, ¬N n) :
    code.captures.length = 1 ∧ code.Spares fun c => c = 0 ∧ N environmentName := by
  cases f with
  | mk params variadic body line =>
  obtain ⟨hparams, hbody⟩ := List.forall_mem_append.mp hf
  have hwhole := Assembly.Keeps.functionBody hparams (Assembly.Keeps.stmts hN body hbody)
  obtain ⟨⟨⟨⟩, drafts⟩, hrun, hcode⟩ := Option.bind_eq_some_iff.mp h
  cases hcode
  have hstart : Drafts.Sound N
      ⟨{ Draft.empty with captures := [(environmentName, .cell 0)] }, []⟩ :=
    ⟨⟨nofun, by simp [Draft.empty], by simp [Draft.empty], by simp [Draft.empty]⟩, rfl⟩
  obtain ⟨hsound, hgrows, -⟩ := hwhole _ _ _ hrun hstart trivial
  have houter : drafts.outer = [] := List.forall₂_nil_left_iff.mp (List.forall₂_cons.mp hgrows).2
  have hcaptures : drafts.current.captures = [(environmentName, .cell 0)] := by
    have hlinked := hsound.linked
    rwa [houter] at hlinked
  refine ⟨by simp [Draft.code, hcaptures], hsound.current.spares (fun c hc => ?_) _ _ _⟩
  obtain ⟨rfl, hname⟩ := hc
  exact ⟨environmentName, ⟨.cell 0, by rw [hcaptures]; rfl⟩, hname⟩

end BuildComposition.Script
