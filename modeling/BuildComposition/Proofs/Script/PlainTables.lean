import BuildComposition.Proofs.Script.Fields
import BuildComposition.Proofs.Script.Reads
import BuildComposition.Proofs.Script.TableContents
import Mathlib.Data.List.Forall2

/-!
# Plain tables that describe something

A target or a placement is described by a table.  A table without a metatable describes it by its entries
alone, which is what a conversion finds there; and whatever a conversion gives, there is a table without
a metatable that describes the same.

## Main definitions

* `Memory.Denotes`: a table without a metatable that describes what a request asks for

## Main results

* `Memory.Denotes.finds`: a table that describes something is converted to it
* `exists_denotes`: whatever has been converted can be described without a metatable
-/

namespace BuildComposition.Script

variable {σ α β : Type}

/-! ## Descriptions -/

namespace Memory

/-- What a table has under a name. -/
def entry (m : Memory) (id : Nat) (name : String) : Value := (m.table id).get (.str (bytes name))

/-- A table without a metatable describes a target.  Without a kind it is executable, and without sources
it has none. -/
structure DescribesTarget (m : Memory) (id : Nat) (t : BuildComposition.Target) : Prop where
  metatable : m.metatable id = none
  name : textOf (m.entry id "name") = .ok t.name
  name_ne : t.name ≠ ""
  kind : m.entry id "kind" = .nil ∧ t.kind = .exe ∨ textOf (m.entry id "kind") = .ok t.kind.name
  sources : m.entry id "sources" = .nil ∧ t.sources = [] ∨
    ∃ list vs, m.entry id "sources" = .table list ∧ (m.table list).Lists vs ∧
      List.Forall₂ (fun v text => textOf v = .ok text) vs t.sources

/-- What a directory is by an entry, if it has a default. -/
def DescribesDir (m : Memory) (id : Nat) (name default dir : String) : Prop :=
  m.entry id name = .nil ∧ dir = default ∨ textOf (m.entry id name) = .ok dir

/-- A table without a metatable describes a placement. -/
structure DescribesPlacement (m : Memory) (id : Nat) (p : Placement) : Prop where
  metatable : m.metatable id = none
  entries : match p with
    | .default => textOf (m.entry id "kind") = .ok "default"
    | .sourceSubdir dir =>
      textOf (m.entry id "kind") = .ok "source_subdir" ∧ m.DescribesDir id "subdir" "o" dir
    | .runtimeSubdir dir =>
      textOf (m.entry id "kind") = .ok "runtime_subdir" ∧ m.DescribesDir id "root" "target" dir

/-- A table without a metatable describes what a request asks for. -/
def Denotes (m : Memory) (id : Nat) : Request → Prop
  | .target t => m.DescribesTarget id t
  | .placement p => m.DescribesPlacement id p
  | _ => False

theorem Denotes.metatable_eq {m : Memory} {id : Nat} {r : Request} (h : m.Denotes id r) :
    m.metatable id = none := by
  cases r with
  | target t => exact DescribesTarget.metatable h
  | placement p => exact DescribesPlacement.metatable h
  | _ => exact h.elim

end Memory

/-! ## What is found in a description -/

namespace Finds

variable {memory : Memory} {id : Nat}

theorem asText {v : Value} {text : String} (h : textOf v = .ok text) :
    Finds memory (asText v : Run σ String) text := by
  unfold Script.asText
  rw [h]
  exact pure _

theorem asText? {v : Value} {text : String} (h : textOf v = .ok text) :
    Finds memory (asText? v : Run σ (Option String)) (some text) := by
  cases v with
  | nil => cases h
  | _ => exact map some (asText h)

theorem asTexts {vs : List Value} {texts : List String}
    (h : List.Forall₂ (fun v text => textOf v = .ok text) vs texts) :
    Finds memory (asTexts vs : Run σ (List String)) texts := by
  induction h with
  | nil => exact pure _
  | cons hv _ ih => exact bind (asText hv) (bind ih (pure _))

variable {c : Call σ} (hmetatable : memory.metatable id = none)

include hmetatable

theorem field (name : String) : Finds memory (c.field id name) (memory.entry id name) :=
  fieldOf hmetatable c.invoke c.caller name

theorem textField? {name text : String} (h : textOf (memory.entry id name) = .ok text) :
    Finds memory (c.textField? id name) (some text) :=
  bind (field hmetatable name) (asText? h)

theorem textField?_none {name : String} (h : memory.entry id name = .nil) :
    Finds memory (c.textField? id name) none := by
  refine bind (field hmetatable name) ?_
  rw [h]
  exact pure _

theorem dir {name default dir : String} (h : memory.DescribesDir id name default dir)
    (f : String → Placement) :
    Finds memory (do return f ((← c.textField? id name).getD default)) (f dir) := by
  rcases h with ⟨hnil, rfl⟩ | htext
  · exact bind (textField?_none hmetatable hnil) (pure _)
  · exact bind (textField? hmetatable htext) (pure _)

omit hmetatable

theorem placementOf {p : Placement} (h : memory.DescribesPlacement id p) :
    Finds memory (c.placementOf id) p := by
  obtain ⟨hmetatable, hentries⟩ := h
  cases p with
  | default => exact bind (textField? hmetatable hentries) (pure _)
  | sourceSubdir d =>
    exact bind (textField? hmetatable hentries.1) (dir hmetatable hentries.2 .sourceSubdir)
  | runtimeSubdir d =>
    exact bind (textField? hmetatable hentries.1) (dir hmetatable hentries.2 .runtimeSubdir)

theorem targetOf {t : BuildComposition.Target} (h : memory.DescribesTarget id t) :
    Finds memory (c.targetOf id) t := by
  obtain ⟨name, kind, sources⟩ := t
  have hsources : Finds memory (c.targetWith id name kind) ⟨name, kind, sources⟩ := by
    refine bind (field h.metatable "sources") ?_
    rcases h.sources with ⟨hnil, hempty⟩ | ⟨list, vs, hlist, hvs, htexts⟩
    · rw [hnil, show sources = [] from hempty]
      exact pure _
    · rw [hlist]
      have hitems : Finds memory (Script.items list : Run σ _) (memory.table list).items := items list
      rw [hvs.items_eq] at hitems
      exact bind hitems (bind (asTexts htexts) (pure _))
  refine bind (textField? h.metatable h.name) ?_
  split
  · next heq => cases heq
  · next heq => exact absurd (Option.some.inj heq) h.name_ne
  · next name' hne heq =>
    cases heq
    rcases h.kind with ⟨hnil, hexe⟩ | hkind
    · obtain rfl : kind = .exe := hexe
      exact bind (textField?_none h.metatable hnil) hsources
    · refine bind (textField? h.metatable hkind) ?_
      dsimp only
      rw [TargetKind.ofName?_name]
      exact hsources

end Finds

section

variable {memory : Memory} {id : Nat} {r : Request} (h : memory.Denotes id r) {args : List Value}
  (harg : args.getD 0 .nil = .table id) {caller : Caller}
  (hroom : caller.height + 1 + args.length + libraryRoom ≤ maxStack)

include h harg hroom

/-- A table that describes something is converted to it. -/
theorem Memory.Denotes.finds (invoke : Invoke σ) :
    Finds memory (conversion invoke r.operation args caller) r := by
  have hdescribed : ∀ {α : Type} {read : Nat → Run σ α} {a : α} (o : Operation) (c : Call σ),
      c.arg 1 = .table id → Finds memory (read id) a → Finds memory (c.describedAt o 1 read) a := by
    intro α read a o c hc hread
    refine .tryCatch ?_ _
    rw [hc]
    exact hread
  unfold conversion
  dsimp only
  rw [if_neg (Nat.not_lt.mpr hroom)]
  cases r with
  | target t => exact .map _ (hdescribed _ _ harg (.targetOf h))
  | placement p => exact .map _ (hdescribed _ _ harg (.placementOf h))
  | _ => exact h.elim

/-- A conversion of such a table leaves the host as it is. -/
theorem Memory.Denotes.exists_run [Host σ] (levels : Nat) {m : Machine σ} (hm : m.memory = memory) :
    ∃ t, (conversion (callWithin levels) r.operation args caller).run m = .ok r t ∧ t.host = m.host := by
  subst hm
  obtain ⟨t, hrun, -⟩ := h.finds harg hroom (callWithin levels) m (.refl _)
  have hplain : IsPlain (args.getD 0 .nil) m := by
    intro other hother
    rw [harg, Value.table.injEq] at hother
    exact hother ▸ h.metatable_eq
  have hquiet : RunsNoMetamethod levels r.operation args caller m :=
    runsNoMetamethod_of_plain fun _ => hplain
  have hends := hquiet.ends
  rw [hrun] at hends
  exact ⟨t, hrun, hends.1⟩

end

/-! ## What has been converted can be described -/

/-- There was room on the stack. -/
theorem room_of_conversion {invoke : Invoke σ} {o : Operation} {args : List Value} {caller : Caller}
    {r : Request} {m t : Machine σ} (h : (conversion invoke o args caller).run m = .ok r t) :
    caller.height + 1 + args.length + libraryRoom ≤ maxStack := by
  unfold conversion at h
  dsimp only at h
  split at h
  · cases h
  · next hroom => exact Nat.not_lt.mp hroom

theorem run_bind_eq_ok {x : Run σ α} {f : α → Run σ β} {m t : Machine σ} {b : β}
    (h : (x >>= f).run m = .ok b t) : ∃ a u, x.run m = .ok a u ∧ (f a).run u = .ok b t := by
  rw [EStateM.run_bind] at h
  cases hx : x.run m with
  | ok a u =>
    rw [hx] at h
    exact ⟨a, u, rfl, h⟩
  | error e u =>
    rw [hx] at h
    cases h

theorem run_map_eq_ok {x : Run σ α} {f : α → β} {m t : Machine σ} {b : β}
    (h : (f <$> x).run m = .ok b t) : ∃ a, x.run m = .ok a t ∧ f a = b := by
  rw [map_eq_pure_bind] at h
  obtain ⟨a, u, hx, hpure⟩ := run_bind_eq_ok h
  cases hpure
  exact ⟨a, hx, rfl⟩

theorem run_asText_eq_ok {v : Value} {text : String} {m t : Machine σ}
    (h : (asText v).run m = .ok text t) : textOf v = .ok text ∧ t = m := by
  unfold asText at h
  cases hv : textOf v with
  | ok text' =>
    rw [hv] at h
    cases h
    exact ⟨rfl, rfl⟩
  | error f =>
    rw [hv] at h
    cases h

theorem run_asTexts_eq_ok {vs : List Value} {texts : List String} {m t : Machine σ}
    (h : (asTexts vs).run m = .ok texts t) :
    List.Forall₂ (fun v text => textOf v = .ok text) vs texts ∧ t = m := by
  induction vs generalizing texts t with
  | nil =>
    cases h
    exact ⟨.nil, rfl⟩
  | cons v vs ih =>
    obtain ⟨text, u, hv, hrest⟩ := run_bind_eq_ok h
    obtain ⟨htext, rfl⟩ := run_asText_eq_ok hv
    obtain ⟨texts', u', hvs, hpure⟩ := run_bind_eq_ok hrest
    obtain ⟨htexts, rfl⟩ := ih hvs
    cases hpure
    exact ⟨.cons htext htexts, rfl⟩

/-- A conversion that succeeds converts a field that is there, or finds that it is not. -/
theorem run_textField?_eq_ok {c : Call σ} {id : Nat} {name : String} {text? : Option String}
    {m t : Machine σ} (h : (c.textField? id name).run m = .ok text? t) :
    ∃ v : Value, v = .nil ∧ text? = none ∨ ∃ text, text? = some text ∧ textOf v = .ok text := by
  obtain ⟨v, u, -, hv⟩ := run_bind_eq_ok h
  refine ⟨v, ?_⟩
  cases v
  case nil =>
    cases hv
    exact .inl ⟨rfl, rfl⟩
  all_goals
    obtain ⟨text, htext, rfl⟩ := run_map_eq_ok hv
    exact .inr ⟨text, rfl, (run_asText_eq_ok htext).1⟩

theorem run_items_eq_ok {list : Nat} {vs : List Value} {m t : Machine σ}
    (h : (items list).run m = .ok vs t) : (t.memory.table list).Lists vs := by
  have hfound : Finds m.memory (items list : Run σ _) (m.memory.table list).items := .items list
  obtain ⟨u, hu, hagrees⟩ := hfound m (.refl _)
  rw [h] at hu
  cases hu
  obtain ⟨hlength, hget, hne, hends⟩ := (m.memory.table list).lists_items
  have hsame : ∀ n, (t.memory.table list).getNat n = (m.memory.table list).getNat n :=
    fun n => hagrees.get_eq list _
  exact ⟨hlength, fun i hi => (hsame _).trans (hget i hi), hne, fun hlt => (hsame _).trans (hends hlt)⟩

theorem run_converting_eq_ok {c : Call σ} {position : Nat} {convert : Value → Run σ α} {a : α}
    {m t : Machine σ} (h : (c.converting position convert).run m = .ok a t) :
    (convert (c.arg position)).run m = .ok a t := by
  unfold Call.converting at h
  cases hrun : (convert (c.arg position)).run m with
  | ok a' t' => rwa [run_tryCatch_of_ok hrun] at h
  | error fault t' =>
    rw [run_tryCatch_of_error hrun] at h
    cases fault <;> cases h

theorem run_describedAt_eq_ok {c : Call σ} {o : Operation} {position : Nat} {read : Nat → Run σ α} {a : α}
    {m t : Machine σ} (h : (c.describedAt o position read).run m = .ok a t) :
    ∃ id, c.arg position = .table id ∧ (read id).run m = .ok a t := by
  have hread := run_converting_eq_ok h
  cases harg : c.arg position with
  | table id =>
    rw [harg] at hread
    exact ⟨id, rfl, hread⟩
  | _ =>
    rw [harg] at hread
    cases hread

/-! ### New tables -/

/-- Memory with one more table, which has some fields. -/
def Memory.withFields (m : Memory) (fields : List (String × Value)) : Memory :=
  (m.newTable (.ofFields fields)).2

namespace Memory

variable (m : Memory) {fields : List (String × Value)}

theorem table_withFields {id : Nat} (hid : id < m.tables.size) :
    (m.withFields fields).table id = m.table id := by
  simp [withFields, newTable, table, Array.getD_eq_getD_getElem?, Array.getElem?_push_lt hid,
    Array.getElem?_eq_getElem hid]

theorem table_withFields_size : (m.withFields fields).table m.tables.size = .ofFields fields := by
  simp [withFields, newTable, table, Array.getD_eq_getD_getElem?]

theorem metatable_withFields : (m.withFields fields).metatable m.tables.size = none := by
  have hplain : (Table.ofFields fields).Holds fun _ => True :=
    .ofFields (fun _ _ => trivial) fun _ _ => trivial
  rw [metatable, table_withFields_size]
  exact hplain.metatable

theorem entry_withFields {name : String} {v : Value} (hnodup : (fields.map fun f => bytes f.1).Nodup)
    (h : (name, v) ∈ fields) : (m.withFields fields).entry m.tables.size name = v := by
  rw [entry, table_withFields_size]
  exact Table.get_ofFields fields hnodup h

end Memory

/-- A directory that has been read is described by an entry. -/
theorem describesDir_of_run {c : Call σ} {id : Nat} {name : String} {text? : Option String}
    {m t : Machine σ} (h : (c.textField? id name).run m = .ok text? t) (hname : bytes "kind" ≠ bytes name)
    (kind default : String) (memory : Memory) :
    ∃ fields, (memory.withFields fields).entry memory.tables.size "kind" = .ofString kind ∧
      (memory.withFields fields).DescribesDir memory.tables.size name default (text?.getD default) := by
  obtain ⟨v, hv⟩ := run_textField?_eq_ok h
  have hnodup : ([("kind", .ofString kind), (name, v)].map fun f => bytes f.1).Nodup := by
    simpa using hname
  refine ⟨_, memory.entry_withFields hnodup List.mem_cons_self, ?_⟩
  unfold Memory.DescribesDir
  rw [memory.entry_withFields hnodup (List.mem_cons_of_mem _ List.mem_cons_self)]
  rcases hv with ⟨rfl, rfl⟩ | ⟨text, rfl, htext⟩
  · exact .inl ⟨rfl, rfl⟩
  · exact .inr htext

/-- A placement that has been read has a plain table that describes it. -/
theorem describesPlacement_of_run {c : Call σ} {id : Nat} {p : Placement} {m t : Machine σ}
    (h : (c.placementOf id).run m = .ok p t) (memory : Memory) :
    ∃ fields, (memory.withFields fields).DescribesPlacement memory.tables.size p := by
  obtain ⟨kind?, u, -, hrest⟩ := run_bind_eq_ok h
  split at hrest
  · cases hrest
  · cases hrest
    refine ⟨[("kind", .ofString "default")], memory.metatable_withFields, ?_⟩
    show textOf _ = _
    rw [memory.entry_withFields (by simp) List.mem_cons_self]
    decide +kernel
  · obtain ⟨text?, u', hread, hpure⟩ := run_bind_eq_ok hrest
    cases hpure
    obtain ⟨fields, hkind, hdir⟩ :=
      describesDir_of_run hread (by decide +kernel) "source_subdir" "o" memory
    refine ⟨fields, memory.metatable_withFields, ?_, hdir⟩
    rw [hkind]
    decide +kernel
  · obtain ⟨text?, u', hread, hpure⟩ := run_bind_eq_ok hrest
    cases hpure
    obtain ⟨fields, hkind, hdir⟩ :=
      describesDir_of_run hread (by decide +kernel) "runtime_subdir" "target" memory
    refine ⟨fields, memory.metatable_withFields, ?_, hdir⟩
    rw [hkind]
    decide +kernel
  · cases hrest

/-- Sources that have been read are still there, unless they were read from no table. -/
theorem describesSources_of_run {c : Call σ} {id : Nat} {name : String} {kind : TargetKind}
    {target : BuildComposition.Target} {m t : Machine σ}
    (h : (c.targetWith id name kind).run m = .ok target t) :
    ∃ (sources : List String) (v : Value), target = ⟨name, kind, sources⟩ ∧
      (v = .nil ∧ sources = [] ∨ ∃ list vs, v = .table list ∧ list < t.memory.tables.size ∧
        (t.memory.table list).Lists vs ∧
        List.Forall₂ (fun v text => textOf v = .ok text) vs sources) := by
  obtain ⟨v, u, -, hrest⟩ := run_bind_eq_ok h
  cases v with
  | nil =>
    cases hrest
    exact ⟨[], .nil, rfl, .inl ⟨rfl, rfl⟩⟩
  | table list =>
    obtain ⟨vs, u', hitems, hrest⟩ := run_bind_eq_ok hrest
    obtain ⟨texts, u'', hconverted, hpure⟩ := run_bind_eq_ok hrest
    obtain ⟨htexts, rfl⟩ := run_asTexts_eq_ok hconverted
    cases hpure
    -- reading the list has left it as it was, so that another table can refer to it
    have hlists := run_items_eq_ok hitems
    by_cases hlist : list < t.memory.tables.size
    · exact ⟨texts, .table list, rfl, .inr ⟨list, vs, rfl, hlist, hlists, htexts⟩⟩
    · -- there is no such table, so there are no items
      have hempty : t.memory.table list = .empty := by
        rw [Memory.table, Array.getD_eq_getD_getElem?, Array.getElem?_eq_none (Nat.not_lt.mp hlist)]
        rfl
      rw [hempty] at hlists
      have hvs : vs = [] := hlists.items_eq.symm.trans (by decide +kernel)
      subst hvs
      cases htexts
      exact ⟨[], .nil, rfl, .inl ⟨rfl, rfl⟩⟩
  | _ => cases hrest

theorem textOf_kindName (kind : TargetKind) : textOf (.ofString kind.name) = .ok kind.name := by
  cases kind <;> decide +kernel

/-- A target that has been read has a plain table that describes it. -/
theorem describesTarget_of_run {c : Call σ} {id : Nat} {target : BuildComposition.Target}
    {m t : Machine σ} (h : (c.targetOf id).run m = .ok target t) :
    ∃ fields, (t.memory.withFields fields).DescribesTarget t.memory.tables.size target := by
  obtain ⟨name?, u, hname, hrest⟩ := run_bind_eq_ok h
  obtain ⟨v, hv⟩ := run_textField?_eq_ok hname
  split at hrest
  · cases hrest
  · cases hrest
  · next name hne =>
    obtain ⟨-, ⟨⟩⟩ | ⟨_, ⟨⟩, htext⟩ := hv
    obtain ⟨kind?, u', -, hrest⟩ := run_bind_eq_ok hrest
    -- the kind is a given one, or the default
    obtain ⟨kind, u'', hsources⟩ : ∃ kind u'', (c.targetWith id name kind).run u'' = .ok target t := by
      cases kind? with
      | none => exact ⟨.exe, u', hrest⟩
      | some text =>
        dsimp only at hrest
        cases hkind : TargetKind.ofName? text with
        | some kind =>
          rw [hkind] at hrest
          exact ⟨kind, u', hrest⟩
        | none =>
          rw [hkind] at hrest
          cases hrest
    obtain ⟨sources, w, rfl, hw⟩ := describesSources_of_run hsources
    have hnodup : ([("name", v), ("kind", .ofString kind.name), ("sources", w)].map
        fun f => bytes f.1).Nodup :=
      (by decide +kernel : [bytes "name", bytes "kind", bytes "sources"].Nodup)
    have hname := t.memory.entry_withFields hnodup List.mem_cons_self
    have hkind := t.memory.entry_withFields hnodup (List.mem_cons_of_mem _ List.mem_cons_self)
    have hsources := t.memory.entry_withFields hnodup
      (List.mem_cons_of_mem _ (List.mem_cons_of_mem _ List.mem_cons_self))
    refine ⟨_, t.memory.metatable_withFields, hname ▸ htext, ?_, .inr ?_, ?_⟩
    · rintro rfl
      exact hne rfl
    · rw [hkind]
      exact textOf_kindName kind
    · rw [hsources]
      refine hw.imp_right ?_
      rintro ⟨list, vs, rfl, hlist, hlists, htexts⟩
      exact ⟨list, vs, rfl, (t.memory.table_withFields hlist).symm ▸ hlists, htexts⟩

/-- Whatever a conversion has given, one more table describes it without a metatable. -/
theorem exists_denotes {invoke : Invoke σ} {o : Operation} {args : List Value} {caller : Caller}
    {r : Request} {m t : Machine σ} (ho : o = .placement ∨ o = .target)
    (h : (conversion invoke o args caller).run m = .ok r t) :
    ∃ fields, (t.memory.withFields fields).Denotes t.memory.tables.size r := by
  unfold conversion at h
  dsimp only at h
  split at h
  · cases h
  rcases ho with rfl | rfl
  · obtain ⟨p, hp, rfl⟩ := run_map_eq_ok h
    obtain ⟨id, -, hread⟩ := run_describedAt_eq_ok hp
    exact describesPlacement_of_run hread t.memory
  · obtain ⟨target, htarget, rfl⟩ := run_map_eq_ok h
    obtain ⟨id, -, hread⟩ := run_describedAt_eq_ok htarget
    exact describesTarget_of_run hread

end BuildComposition.Script
