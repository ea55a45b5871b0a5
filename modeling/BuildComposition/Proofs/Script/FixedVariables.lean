import BuildComposition.Proofs.Script.CapturedVariables
import BuildComposition.Proofs.Script.TableContents
import BuildComposition.Proofs.Script.WatchedRuns
import Mathlib.Data.Nat.Basic
import Mathlib.Order.Monotone.Defs

/-!
# Variables that keep their values

Captured variables are fixed if no function in memory gives them a value.  Then no function that is made
later does: what it captures is a variable of the function around it, or one that this has captured, and its
code spares what the code around it spares.  So a fixed variable has its value at every snapshot of a run, and
its readers find that value.

How many variables there are decides whether a number stands for one.  The number grows during a run, so that
conditions on functions are conditions on this number, too.

## Main definitions

* `Code.Respects`: a function with its captured variables gives none of the fixed ones a value
* `Memory.Respects`, `Machine.Respects`: fixed variables have their values and keep them
* `Upholds`: an action that keeps the variables fixed

## Main results

* `Upholds.execute`: an instruction
* `Upholds.watchedStep`: the next instruction of functions that call one another
* `Upholds.watchedInvoke`: a call of a value
-/

namespace BuildComposition.Script

variable {σ α β : Type} {fixed : List (Nat × Value)}

/-! ## Functions -/

/-- The variables that a function captures are among the first so many, and it gives those of them that are
fixed no value. -/
structure Code.Respects (fixed : List (Nat × Value)) (size : Nat) (code : Code) (cells : Array Nat) :
    Prop where
  size_eq : cells.size = code.captures.length
  lt : ∀ c ∈ cells, c < size
  spares : code.Spares fun i => ∃ k v, cells[i]? = some k ∧ (k, v) ∈ fixed

/-- An activation of a function that gives no fixed variable a value. -/
abbrev Activation.Respects (fixed : List (Nat × Value)) (a : Activation) (size : Nat) : Prop :=
  a.code.Respects fixed size a.cells

/-- Code that assigns to no captured variable respects all of them. -/
theorem Code.spares_trivial (P : Nat → Prop) : Code.trivial.Spares P :=
  .mk (by simp [Code.trivial]) (by simp [Code.trivial]) (by simp [Code.trivial])

namespace Code.Respects

variable {size : Nat} {code : Code} {cells : Array Nat}

theorem mono (h : code.Respects fixed size cells) {more : Nat} (hsize : size ≤ more) :
    code.Respects fixed more cells :=
  ⟨h.size_eq, fun c hc => Nat.lt_of_lt_of_le (h.lt c hc) hsize, h.spares⟩

theorem trivial (fixed : List (Nat × Value)) (size : Nat) : Code.trivial.Respects fixed size #[] :=
  ⟨rfl, by simp, spares_trivial _⟩

/-- A variable that is made next is captured by no function yet. -/
theorem fix (h : code.Respects fixed size cells) (v : Value) :
    code.Respects ((size, v) :: fixed) size cells := by
  refine ⟨h.size_eq, h.lt, h.spares.anti fun i _ hi => ?_⟩
  obtain ⟨k, w, hk, hmem⟩ := hi
  rcases List.mem_cons.mp hmem with heq | hmem
  · cases heq
    exact absurd (h.lt size (Array.mem_of_getElem? hk)) (Nat.lt_irrefl _)
  · exact ⟨k, w, hk, hmem⟩

/-- What is assigned to is no fixed variable. -/
theorem not_fixed (h : code.Respects fixed size cells) {c source : Nat}
    (hi : .assign c source ∈ code.instructions) (v : Value) : (cells.getD c 0, v) ∉ fixed := by
  obtain ⟨assigns, -, -⟩ := h.spares
  obtain ⟨hlt, hspared⟩ := assigns c source hi
  have hget : cells[c]? = some (cells.getD c 0) := by
    have hc : c < cells.size := h.size_eq ▸ hlt
    simp [Array.getD_eq_getD_getElem?, hc]
  exact fun hmem => hspared ⟨_, v, hget, hmem⟩

end Code.Respects

theorem Code.monotone_respects (code : Code) (cells : Array Nat) :
    Monotone fun size => code.Respects fixed size cells :=
  fun _ _ hsize h => h.mono hsize

/-! ## Variables that are captured one by one -/

theorem captured_of_capturedAt? {position id : Nat} {captured : List (Nat × Nat)}
    (h : capturedAt? position captured = some id) : ∃ p, (p, id) ∈ captured := by
  induction captured with
  | nil => cases h
  | cons topmost rest ih =>
    obtain ⟨p, other⟩ := topmost
    rw [capturedAt?] at h
    split at h
    · cases h
      exact ⟨p, List.mem_cons_self⟩
    · split at h
      · cases h
      · obtain ⟨q, hq⟩ := ih h
        exact ⟨q, List.mem_cons_of_mem _ hq⟩

theorem mem_of_mem_addCaptured {position id : Nat} {captured : List (Nat × Nat)} {x : Nat × Nat}
    (h : x ∈ addCaptured position id captured) : x = (position, id) ∨ x ∈ captured := by
  induction captured with
  | nil => exact .inl (List.mem_singleton.mp h)
  | cons topmost rest ih =>
    obtain ⟨p, other⟩ := topmost
    rw [addCaptured] at h
    split at h
    · rcases List.mem_cons.mp h with rfl | h
      · exact .inr List.mem_cons_self
      · exact (ih h).imp_right (List.mem_cons_of_mem _)
    · exact List.mem_cons.mp h

/-- The variables that a function inside another one has captured so far.  The fixed ones among them are
variables that the function around it captures. -/
structure Activation.Gathered (fixed : List (Nat × Value)) (a : Activation) (captures : List Capture)
    (cells : Array Nat) (size : Nat) : Prop where
  size_eq : cells.size = captures.length
  lt : ∀ c ∈ cells, c < size
  inherited : ∀ (i k : Nat) (v : Value), cells[i]? = some k → (k, v) ∈ fixed →
    ∃ c : Nat, captures[i]? = some (Capture.cell c) ∧ a.cells[c]? = some k

namespace Activation

variable {a : Activation} {captures : List Capture} {cells : Array Nat} {size : Nat}

theorem Gathered.start (fixed : List (Nat × Value)) (a : Activation) (size : Nat) :
    a.Gathered fixed [] #[] size := ⟨rfl, by simp, by simp⟩

theorem Gathered.mono (h : a.Gathered fixed captures cells size) {more : Nat} (hsize : size ≤ more) :
    a.Gathered fixed captures cells more :=
  ⟨h.size_eq, fun c hc => Nat.lt_of_lt_of_le (h.lt c hc) hsize, h.inherited⟩

theorem Gathered.push (h : a.Gathered fixed captures cells size) {capture : Capture} {id : Nat}
    (hlt : id < size)
    (hid : ∀ v, (id, v) ∈ fixed → ∃ c : Nat, capture = Capture.cell c ∧ a.cells[c]? = some id) :
    a.Gathered fixed (captures ++ [capture]) (cells.push id) size := by
  refine ⟨by simp [h.size_eq], fun c hc => ?_, fun i k v hk hmem => ?_⟩
  · rcases Array.mem_push.mp hc with hc | rfl
    · exact h.lt c hc
    · exact hlt
  · rw [Array.getElem?_push] at hk
    split at hk
    · next hi =>
      cases hk
      obtain ⟨c, rfl, hc⟩ := hid v hmem
      exact ⟨c, by simp [hi, h.size_eq], hc⟩
    · obtain ⟨c, hcapture, hc⟩ := h.inherited i k v hk hmem
      have hi : i < captures.length := (List.getElem?_eq_some_iff.mp hcapture).1
      exact ⟨c, by rw [List.getElem?_append_left hi, hcapture], hc⟩

/-- A function inside another one respects what the one around it respects. -/
theorem Respects.inner (ha : a.Respects fixed size) (number : Nat)
    (h : a.Gathered fixed (a.code.functions.getD number .trivial).captures cells size) :
    (a.code.functions.getD number .trivial).Respects fixed size cells := by
  rw [Array.getD_eq_getD_getElem?] at h ⊢
  cases hf : a.code.functions[number]? with
  | none =>
    rw [hf] at h
    rw [Array.eq_empty_of_size_eq_zero h.size_eq]
    exact .trivial _ _
  | some f =>
    rw [hf] at h
    obtain ⟨-, -, inner⟩ := ha.spares
    refine ⟨h.size_eq, h.lt, (inner f (Array.mem_of_getElem? hf)).anti fun i _ hi => ?_⟩
    obtain ⟨k, v, hk, hmem⟩ := hi
    obtain ⟨c, hcapture, hc⟩ := h.inherited i k v hk hmem
    exact ⟨c, hcapture, k, v, hc, hmem⟩

/-- A function inside another one captures variables that the one around it has. -/
theorem Respects.lt_of_capture (ha : a.Respects fixed size) {number c : Nat}
    (h : Capture.cell c ∈ (a.code.functions.getD number .trivial).captures) : c < a.cells.size := by
  rw [Array.getD_eq_getD_getElem?] at h
  cases hf : a.code.functions[number]? with
  | none =>
    rw [hf] at h
    cases h
  | some f =>
    rw [hf] at h
    obtain ⟨-, inside, -⟩ := ha.spares
    obtain ⟨i, hi⟩ := List.getElem?_of_mem h
    exact ha.size_eq ▸ inside f (Array.mem_of_getElem? hf) i c hi

end Activation

/-! ## Memory -/

/-- The fixed variables have their values, and no function gives them others. -/
structure Memory.Respects (fixed : List (Nat × Value)) (m : Memory) : Prop where
  holds : ∀ k v, (k, v) ∈ fixed → m.cells[k]? = some (.apart v)
  closures : ∀ f ∈ m.closures, f.code.Respects fixed m.cells.size f.cells

theorem Memory.size_newCell (m : Memory) (cell : Cell) :
    (m.newCell cell).2.cells.size = m.cells.size + 1 := by
  simp [newCell]

namespace Memory.Respects

variable {m n : Memory}

theorem lt (h : m.Respects fixed) {k : Nat} {v : Value} (hmem : (k, v) ∈ fixed) : k < m.cells.size :=
  (Array.getElem?_eq_some_iff.mp (h.holds k v hmem)).1

theorem sameFunctions (h : m.Respects fixed) (hn : m.SameFunctions n) : n.Respects fixed := by
  obtain ⟨hcells, hclosures⟩ := hn
  exact ⟨hcells ▸ h.holds, fun f hf => hcells ▸ h.closures f (hclosures ▸ hf)⟩

theorem closure (h : m.Respects fixed) (id : Nat) :
    (m.closure id).code.Respects fixed m.cells.size (m.closure id).cells := by
  rw [Memory.closure, Array.getD_eq_getD_getElem?]
  cases hid : m.closures[id]? with
  | none => exact .trivial _ _
  | some f => exact h.closures f (Array.mem_of_getElem? hid)

/-- A variable that is made next is not fixed yet. -/
theorem fresh (h : m.Respects fixed) (v : Value) : (m.cells.size, v) ∉ fixed :=
  fun hmem => Nat.lt_irrefl _ (h.lt hmem)

theorem newCell (h : m.Respects fixed) (cell : Cell) : (m.newCell cell).2.Respects fixed := by
  refine ⟨fun k v hmem => ?_, fun f hf => (h.closures f hf).mono (by simp [Memory.newCell])⟩
  rw [Memory.newCell, Array.getElem?_push_lt (h.lt hmem)]
  simpa [h.lt hmem] using h.holds k v hmem

/-- A new variable can be fixed. -/
theorem newFixed (h : m.Respects fixed) (v : Value) :
    (m.newCell (.apart v)).2.Respects ((m.cells.size, v) :: fixed) := by
  refine ⟨fun k w hmem => ?_, fun f hf => ((h.closures f hf).fix v).mono (by simp [Memory.newCell])⟩
  rcases List.mem_cons.mp hmem with heq | hmem
  · cases heq
    simp [Memory.newCell]
  · exact (h.newCell _).holds k w hmem

theorem newClosure (h : m.Respects fixed) {f : Closure}
    (hf : f.code.Respects fixed m.cells.size f.cells) : (m.newClosure f).2.Respects fixed := by
  refine ⟨h.holds, fun g hg => ?_⟩
  rcases Array.mem_push.mp hg with hg | rfl
  · exact h.closures g hg
  · exact hf

theorem size_sealed (m : Memory) (id : Nat) (v : Value) : (m.sealed id v).cells.size = m.cells.size := by
  simp [sealed, replaced]

theorem sealed (h : m.Respects fixed) {id : Nat} (hid : ∀ v, (id, v) ∉ fixed) (w : Value) :
    (m.sealed id w).Respects fixed := by
  refine ⟨fun k v hmem => ?_, fun f hf => ?_⟩
  · have hne : id ≠ k := fun heq => hid v (heq ▸ hmem)
    rw [Memory.sealed, replaced, Array.getElem?_setIfInBounds_ne hne]
    exact h.holds k v hmem
  · rw [size_sealed]
    exact h.closures f hf

end Memory.Respects

/-! ## Machines -/

/-- Fixed variables have their values, had them at all snapshots, and are not among those that still stand on
the stack. -/
structure Machine.Respects (fixed : List (Nat × Value)) (m : Machine (Watched σ)) : Prop where
  memory : m.memory.Respects fixed
  captured : ∀ position id, (position, id) ∈ m.captured →
    id < m.memory.cells.size ∧ ∀ v, (id, v) ∉ fixed
  record : ∀ p ∈ m.host.record, ∀ k v, (k, v) ∈ fixed → p.memory.cells[k]? = some (.apart v)

namespace Machine.Respects

variable {m : Machine (Watched σ)}

theorem newCell (h : m.Respects fixed) (cell : Cell) :
    Machine.Respects fixed { m with memory := (m.memory.newCell cell).2 } := by
  refine ⟨h.memory.newCell cell, fun position id hmem => ⟨?_, (h.captured position id hmem).2⟩, h.record⟩
  rw [Memory.size_newCell]
  exact Nat.lt_succ_of_lt (h.captured position id hmem).1

/-- A new variable is fixed before anything is executed. -/
theorem newFixed (h : m.Respects fixed) (hrecord : m.host.record = []) (v : Value) :
    Machine.Respects ((m.memory.cells.size, v) :: fixed)
      { m with memory := (m.memory.newCell (.apart v)).2 } := by
  have hnew := h.newCell (.apart v)
  refine ⟨h.memory.newFixed v, fun position id hmem => ⟨(hnew.captured position id hmem).1, ?_⟩, ?_⟩
  · intro w hw
    rcases List.mem_cons.mp hw with heq | hw
    · cases heq
      exact Nat.lt_irrefl _ (h.captured position _ hmem).1
    · exact (h.captured position id hmem).2 w hw
  · simp [hrecord]

end Machine.Respects

/-- The number of captured variables that a machine has. -/
abbrev Machine.variables (m : Machine σ) : Nat := m.memory.cells.size

/-- A machine that is in step with itself, keeps fixed variables, and has at least so many variables. -/
def Fixes (fixed : List (Nat × Value)) (size : Nat) (s t : Machine (Watched σ)) : Prop :=
  s = t ∧ s.Respects fixed ∧ size ≤ s.variables

instance {size : Nat} : Steady (Fixes (σ := σ) fixed size) where
  same := by
    rintro s _ ⟨rfl, -, -⟩
    exact ⟨rfl, rfl, rfl⟩
  moved := by
    rintro s _ ⟨rfl, hs, hsize⟩ memory stack hsame _
    have hcells : memory.cells.size = s.memory.cells.size := by rw [hsame.1]
    refine ⟨rfl, ⟨hs.memory.sameFunctions hsame, fun position id hmem => ?_, hs.record⟩,
      hsize.trans hcells.ge⟩
    exact hcells ▸ hs.captured position id hmem
  sealed := by
    rintro s _ ⟨rfl, hs, hsize⟩ position id v hmem
    have hcells := Memory.Respects.size_sealed s.memory id v
    refine ⟨rfl, ⟨hs.memory.sealed (hs.captured position id hmem).2 v, fun position id hmem => ?_,
      hs.record⟩, hsize.trans hcells.ge⟩
    exact hcells ▸ hs.captured position id hmem
  dropped := by
    rintro s _ ⟨rfl, hs, hsize⟩ captured hsuffix
    exact ⟨rfl, ⟨hs.memory, fun position id hmem => hs.captured position id (hsuffix.subset hmem),
      hs.record⟩, hsize⟩

/-- Where an action has ended on a machine that keeps fixed variables, and has no fewer variables. -/
def Stands (fixed : List (Nat × Value)) (size : Nat) (Q : α → Nat → Prop) :
    EStateM.Result Fault (Machine (Watched σ)) α → Prop
  | .ok a m => (m.Respects fixed ∧ size ≤ m.variables) ∧ Q a m.variables
  | .error _ m => m.Respects fixed ∧ size ≤ m.variables

/-- There were even fewer variables before. -/
theorem Stands.of_le {size more : Nat} {Q : α → Nat → Prop}
    {r : EStateM.Result Fault (Machine (Watched σ)) α} (h : Stands fixed more Q r) (hle : size ≤ more) :
    Stands fixed size Q r := by
  cases r with
  | ok a m => exact ⟨⟨h.1.1, hle.trans h.1.2⟩, h.2⟩
  | error fault m => exact ⟨h.1, hle.trans h.2⟩

/-- Less is said of what the action gives. -/
theorem Stands.mono {size : Nat} {Q V : α → Nat → Prop}
    {r : EStateM.Result Fault (Machine (Watched σ)) α} (h : Stands fixed size Q r)
    (hQ : ∀ a more, size ≤ more → Q a more → V a more) : Stands fixed size V r := by
  cases r with
  | ok a m => exact ⟨h.1, hQ a _ h.1.2 h.2⟩
  | error fault m => exact h

/-- An action that keeps variables fixed, from where a condition on the number of variables holds.  What it
gives satisfies another one. -/
def Upholds (fixed : List (Nat × Value)) (P : Nat → Prop) (Q : α → Nat → Prop)
    (act : Run (Watched σ) α) : Prop :=
  ∀ m : Machine (Watched σ), m.Respects fixed → P m.variables → Stands fixed m.variables Q (act.run m)

/-- An action of which nothing is needed but that it keeps variables fixed. -/
abbrev UpholdsAny (fixed : List (Nat × Value)) (act : Run (Watched σ) α) : Prop :=
  Upholds fixed (fun _ => True) (fun _ _ => True) act

namespace Upholds

variable {P U : Nat → Prop} {Q V : α → Nat → Prop} {R : β → Nat → Prop}

theorem pure {a : α} (h : ∀ size, P size → Q a size) : Upholds fixed P Q (Pure.pure a : Run (Watched σ) α) :=
  fun m hm hP => ⟨⟨hm, Nat.le_refl _⟩, h m.variables hP⟩

theorem throw (fault : Fault) : Upholds fixed P Q (MonadExcept.throw fault : Run (Watched σ) α) :=
  fun _ hm _ => ⟨hm, Nat.le_refl _⟩

theorem bind {x : Run (Watched σ) α} {f : α → Run (Watched σ) β} (hx : Upholds fixed P Q x)
    (hf : ∀ a, Upholds fixed (Q a) R (f a)) : Upholds fixed P R (x >>= f) := by
  intro m hm hP
  have hend := hx m hm hP
  rw [EStateM.run_bind]
  cases hrun : x.run m with
  | error fault t =>
    rw [hrun] at hend
    exact hend
  | ok a t =>
    rw [hrun] at hend
    exact (hf a t hend.1.1 hend.2).of_le hend.1.2

theorem mono {x : Run (Watched σ) α} (hx : Upholds fixed P Q x) (hP : ∀ size, U size → P size)
    (hQ : ∀ a size, Q a size → V a size) : Upholds fixed U V x :=
  fun m hm hU => (hx m hm (hP _ hU)).mono fun a size _ => hQ a size

/-- What is known of the number of variables, and holds of greater ones too, is still known afterwards. -/
theorem also {x : Run (Watched σ) α} (hx : Upholds fixed P Q x) (h : ∀ size, U size → P size)
    (hU : Monotone U) : Upholds fixed U (fun a size => Q a size ∧ U size) x :=
  fun m hm hPm => (hx m hm (h _ hPm)).mono fun _ _ hsize ha => ⟨ha, hU hsize hPm⟩

/-- An action of which nothing is needed, and what follows. -/
theorem next {x : Run (Watched σ) α} {f : α → Run (Watched σ) β} (hx : UpholdsAny fixed x)
    (hP : Monotone P) (hf : ∀ a, Upholds fixed P R (f a)) : Upholds fixed P R (x >>= f) :=
  bind (hx.also (fun _ _ => trivial) hP) fun a => (hf a).mono (fun _ h => h.2) fun _ _ h => h

/-- What an action does on machines in step, it does on one machine. -/
theorem of_mirrors {x : Run (Watched σ) α} (h : ∀ size, Mirrors (Fixes fixed size) x x) :
    UpholdsAny fixed x := by
  intro m hm _
  have hends := h m.variables m m ⟨rfl, hm, Nat.le_refl _⟩
  cases hrun : x.run m with
  | ok a t =>
    rw [hrun] at hends
    cases hends with
    | ok _ hst => exact ⟨hst.2, trivial⟩
  | error fault t =>
    rw [hrun] at hends
    cases hends with
    | error _ hst => exact hst.2

theorem mirrors {x : Run (Watched σ) α} (h : UpholdsAny fixed x) (size : Nat) :
    Mirrors (Fixes fixed size) x x := by
  rintro s _ ⟨rfl, hs, hsize⟩
  have hend := h s hs trivial
  cases hrun : x.run s with
  | ok a t =>
    rw [hrun] at hend
    exact .ok rfl ⟨rfl, hend.1.1, hsize.trans hend.1.2⟩
  | error fault t =>
    rw [hrun] at hend
    exact .error rfl ⟨rfl, hend.1, hsize.trans hend.2⟩

theorem iterate {step : α → Run (Watched σ) (Sum α β)} {P : α → Nat → Prop}
    (hstep : ∀ a, Upholds fixed (P a) (fun next size => ∀ a, next = .inl a → P a size) (step a))
    (fuel : Nat) (a : α) : Upholds fixed (P a) (fun _ _ => True) (iterate step fuel a) := by
  induction fuel generalizing a with
  | zero => exact throw _
  | succ fuel ih =>
    refine bind (hstep a) fun next => ?_
    cases next with
    | inl a => exact (ih a).mono (fun _ h => h a rfl) fun _ _ h => h
    | inr b => exact pure fun _ _ => trivial

/-! ## Captured variables -/

/-- A new variable is not fixed. -/
theorem newCell (cell : Cell) :
    Upholds fixed (fun _ => True) (fun id size => id < size ∧ ∀ v, (id, v) ∉ fixed)
      (allocate (·.newCell cell) : Run (Watched σ) Nat) :=
  fun _ hm _ => ⟨⟨hm.newCell cell, (Memory.size_newCell _ _).ge.trans' (Nat.le_succ _)⟩,
    (Memory.size_newCell _ _).ge, hm.memory.fresh⟩

/-- A local variable that is captured is not fixed. -/
theorem captureAt (position : Nat) :
    Upholds fixed (fun _ => True) (fun id size => id < size ∧ ∀ v, (id, v) ∉ fixed)
      (captureAt position : Run (Watched σ) Nat) := by
  intro m hm _
  unfold Script.captureAt
  rw [EStateM.run_bind, EStateM.run_get]
  dsimp only
  split
  · next id hid =>
    obtain ⟨p, hp⟩ := captured_of_capturedAt? hid
    exact ⟨⟨hm, Nat.le_refl _⟩, hm.captured p id hp⟩
  · refine bind (newCell (.onStack position)) (fun id => ?_) m hm trivial
    intro m hm hid
    refine ⟨⟨⟨hm.memory, fun p other hmem => ?_, hm.record⟩, Nat.le_refl _⟩, hid⟩
    rcases mem_of_mem_addCaptured hmem with heq | hmem
    · cases heq
      exact hid
    · exact hm.captured p other hmem

theorem writeCell {id : Nat} (hid : ∀ v, (id, v) ∉ fixed) (v : Value) :
    UpholdsAny fixed (writeCell id v : Run (Watched σ) Unit) := by
  intro m hm _
  have hsealed : Stands fixed m.variables (fun _ _ => True)
      ((store (·.sealed id v) : Run (Watched σ) Unit).run m) := by
    have hcells := Memory.Respects.size_sealed m.memory id v
    refine ⟨⟨⟨hm.memory.sealed hid v, fun p other hmem => ?_, hm.record⟩, hcells.ge⟩, trivial⟩
    exact hcells ▸ hm.captured p other hmem
  unfold Script.writeCell
  rw [EStateM.run_bind, EStateM.run_get]
  dsimp only
  split
  · next position _ => exact of_mirrors (fun _ => .put position v) m hm trivial
  · exact hsealed

/-- What is given up when an action is interrupted are no fixed variables. -/
theorem stands_guarded {x : Run (Watched σ) α} {m : Machine (Watched σ)} {size : Nat}
    (h : Stands fixed size Q (x.run m)) (height : Nat) : Stands fixed size Q ((guarded height x).run m) := by
  cases hrun : x.run m with
  | ok a t =>
    rw [hrun] at h
    rw [guarded, run_tryCatch_of_ok hrun]
    exact h
  | error fault t =>
    rw [hrun] at h
    rw [guarded, run_tryCatch_of_error hrun]
    have hclose : Upholds fixed (fun _ => True) Q (do
        Script.closeFrom height
        MonadExcept.throw fault : Run (Watched σ) α) :=
      bind (of_mirrors fun _ => .closeFrom height) fun _ => throw fault
    exact (hclose t h.1 trivial).of_le h.2

/-- What a function inside another one captures when it is made. -/
theorem captured (a : Activation) (gathered captures : List Capture) (cells : Array Nat)
    (hcells : ∀ c, Capture.cell c ∈ captures → c < a.cells.size) :
    Upholds fixed (fun size => a.Respects fixed size ∧ a.Gathered fixed gathered cells size)
      (fun cells size => a.Respects fixed size ∧ a.Gathered fixed (gathered ++ captures) cells size)
      (a.captured captures cells : Run (Watched σ) (Array Nat)) := by
  have hmono : ∀ gathered cells,
      Monotone fun size => a.Respects fixed size ∧ a.Gathered fixed gathered cells size :=
    fun _ _ _ _ hsize h => ⟨h.1.mono hsize, h.2.mono hsize⟩
  -- a register is captured as a variable that is not fixed, and a captured variable is handed on
  induction captures generalizing gathered cells with
  | nil =>
    rw [List.append_nil]
    exact pure fun _ h => h
  | cons capture rest ih =>
    rw [List.append_cons]
    have hrest := fun cells =>
      ih (gathered ++ [capture]) cells fun c hc => hcells c (List.mem_cons_of_mem _ hc)
    cases capture with
    | register r =>
      refine bind ((captureAt (a.base + r)).also (fun _ _ => trivial) (hmono gathered cells)) fun id => ?_
      refine (hrest (cells.push id)).mono (fun size h => ?_) fun _ _ h => h
      obtain ⟨hid, ha, hgathered⟩ := h
      exact ⟨ha, hgathered.push hid.1 fun v hv => absurd hv (hid.2 v)⟩
    | cell c =>
      refine (hrest (cells.push (a.cells.getD c 0))).mono (fun size h => ⟨h.1, h.2.push ?_ fun v _ => ?_⟩)
        fun _ _ h => h
      all_goals have hc := hcells c List.mem_cons_self
      · exact h.1.lt _ (by simp [Array.getD_eq_getD_getElem?, hc])
      · exact ⟨c, rfl, by simp [Array.getD_eq_getD_getElem?, hc]⟩

/-! ## Instructions -/

theorem store {f : Memory → Memory} (hf : ∀ m : Memory, m.SameFunctions (f m)) :
    UpholdsAny fixed (Script.store f : Run (Watched σ) Unit) := by
  intro m hm _
  have hcells : (f m.memory).cells.size = m.memory.cells.size := by rw [(hf m.memory).1]
  refine ⟨⟨⟨hm.memory.sameFunctions (hf _), fun p id hmem => ?_, hm.record⟩, hcells.ge⟩, trivial⟩
  exact hcells ▸ hm.captured p id hmem

theorem assignOwn (sites : Sites) (id : Nat) (key v : Value) :
    UpholdsAny fixed (assignOwn sites id key v : Run (Watched σ) Unit) := by
  unfold Script.assignOwn
  split
  · refine store fun m => ?_
    unfold Memory.rawSet
    split <;> exact ⟨rfl, rfl⟩
  · split <;> exact throw _

theorem newClosure (f : Closure) :
    Upholds fixed (fun size => f.code.Respects fixed size f.cells) (fun _ _ => True)
      (allocate (·.newClosure f) : Run (Watched σ) Nat) :=
  fun _ hm hf => ⟨⟨⟨hm.memory.newClosure hf, hm.captured, hm.record⟩, Nat.le_refl _⟩, trivial⟩

variable {invoke : Invoke (Watched σ)}

theorem execute (h : ∀ f args caller, UpholdsAny fixed (invoke f args caller)) (a : Activation)
    (sites : Sites) {i : Instruction} (hi : i ∈ a.code.instructions) :
    Upholds fixed (a.Respects fixed) (fun _ _ => True) (a.execute invoke sites i) := by
  have hquiet : ∀ {γ : Type} {x : Run (Watched σ) γ}, (∀ size, Mirrors (Fixes fixed size) x x) →
      UpholdsAny fixed x := of_mirrors
  have hmirrors : ∀ size, MirrorsCalls (Fixes fixed size) invoke invoke :=
    fun size f args caller => (h f args caller).mirrors size
  -- all other instructions leave variables and functions alone
  have hother : (∀ object key value, i ≠ .set object key value) → (∀ cell source, i ≠ .assign cell source) →
      (∀ dest number, i ≠ .closure dest number) → UpholdsAny fixed (a.execute invoke sites i) := by
    intro hset hassign hclosure
    refine hquiet fun size => Mirrors.executeQuietly a (hmirrors size) sites ?_ ?_ ?_
    · exact fun object key value heq => absurd heq (hset object key value)
    · exact fun cell source heq => absurd heq (hassign cell source)
    · exact fun dest number heq => absurd heq (hclosure dest number)
  cases i with
  | set object key value =>
    have hset : UpholdsAny fixed (a.execute invoke sites (.set object key value)) := hquiet fun size =>
      Mirrors.executeSet a (hmirrors size) sites object key value fun id key v =>
        (assignOwn sites id key v).mirrors size
    exact hset.mono (fun _ _ => trivial) fun _ _ h => h
  | assign cell source =>
    intro m hm ha
    refine bind (hquiet fun _ => .top _) (fun v => ?_) m hm trivial
    exact bind (writeCell (ha.not_fixed hi) v) fun _ => pure fun _ _ => trivial
  | closure dest number =>
    intro m hm ha
    have hcells : ∀ c, Capture.cell c ∈ (a.code.functions.getD number .trivial).captures → c < a.cells.size :=
      fun c hc => ha.lt_of_capture hc
    refine bind (captured a [] _ #[] hcells) (fun cells => ?_) m hm ⟨ha, .start _ _ _⟩
    refine bind ((newClosure ⟨_, cells, a.source⟩).mono (fun size h => h.1.inner number h.2) fun _ _ h => h)
      fun id => hquiet fun _ => .write a dest _
  | _ =>
    refine (hother ?_ ?_ ?_).mono (fun _ _ => trivial) fun _ _ h => h
    · exact fun _ _ _ heq => by cases heq
    · exact fun _ _ heq => by cases heq
    · exact fun _ _ heq => by cases heq

/-! ## Functions that call one another -/

/-- A function begins with the code and the variables that it has in memory. -/
theorem beginAt (f : Closure) (home count : Nat) (wanted : Option Nat) :
    Upholds fixed (fun size => f.code.Respects fixed size f.cells) (fun a => a.Respects fixed)
      (f.begin home count wanted : Run (Watched σ) Activation) := by
  have hmono : Monotone fun size => f.code.Respects fixed size f.cells := Code.monotone_respects _ _
  unfold Closure.begin
  dsimp only
  split
  · split
    · exact throw _
    · refine next (of_mirrors fun _ => .grow _) hmono fun _ => next (of_mirrors fun _ => .clear _ _) hmono
        fun _ => next (of_mirrors fun _ => .taken _ _) hmono fun vs => ?_
      exact next (of_mirrors fun _ => .putAll _ vs) hmono fun _ => pure fun _ h => h
  · exact next (of_mirrors fun _ => .grow _) hmono fun _ => next (of_mirrors fun _ => .clear _ _) hmono
      fun _ => pure fun _ h => h

theorem activate (f : Closure) (home count : Nat) (wanted : Option Nat) (sites : Sites) :
    Upholds fixed (fun size => f.code.Respects fixed size f.cells) (fun a => a.Respects fixed)
      (f.activate home count wanted sites : Run (Watched σ) Activation) := by
  unfold Closure.activate
  split
  · exact throw _
  · exact beginAt f home count wanted

/-- Every function that is found in memory respects the fixed variables. -/
theorem loadClosure (id : Nat) :
    Upholds fixed (fun _ => True) (fun f size => f.code.Respects fixed size f.cells)
      (load (·.closure id) : Run (Watched σ) Closure) :=
  fun _ hm _ => ⟨⟨hm, Nat.le_refl _⟩, hm.memory.closure id⟩

end Upholds

/-- Functions that call one another and respect fixed variables. -/
def Calls.Respects (fixed : List (Nat × Value)) (c : Calls) (size : Nat) : Prop :=
  ∀ a ∈ c.current :: c.waiting, a.Respects fixed size

/-- What follows a step: functions that respect fixed variables, unless there are results. -/
def Calls.GoesOn (fixed : List (Nat × Value)) (next : Sum Calls (List Value)) (size : Nat) : Prop :=
  ∀ c, next = .inl c → c.Respects fixed size

namespace Calls

variable {c : Calls} {size : Nat}

theorem Respects.current (h : c.Respects fixed size) : c.current.Respects fixed size :=
  h _ List.mem_cons_self

theorem monotone_respects (fixed : List (Nat × Value)) (c : Calls) : Monotone (c.Respects fixed) :=
  fun _ _ hsize h a ha => (h a ha).mono hsize

theorem respects_follow {a : Activation} {waiting : List Activation} (flow : Flow)
    (h : (Calls.mk a waiting).Respects fixed size) :
    (Calls.mk (a.follow flow) waiting).Respects fixed size := by
  intro b hb
  rcases List.mem_cons.mp hb with rfl | hb
  · have ha := h a List.mem_cons_self
    cases flow <;> exact ha
  · exact h b (List.mem_cons_of_mem _ hb)

end Calls

namespace Upholds

variable {invoke : Invoke (Watched σ)}

theorem finish (c : Calls) (values : List Value) :
    Upholds fixed (c.Respects fixed) (Calls.GoesOn fixed) (c.finish values : Run (Watched σ) _) := by
  unfold Calls.finish
  split
  · exact pure fun _ _ _ heq => nomatch heq
  · next a waiting hwaiting =>
    have hmono := Calls.monotone_respects fixed c
    refine next (of_mirrors fun _ => .receive _ values _) hmono fun flow => pure ?_
    rintro size h _ ⟨⟩
    exact Calls.respects_follow flow fun b hb => h b (List.mem_cons_of_mem _ (hwaiting ▸ hb))

variable {library : Library (Watched σ)}

theorem callBy (h : ∀ b args caller, UpholdsAny fixed (library b args caller)) (c : Calls) (sites : Sites)
    (position count : Nat) (wanted : Option Nat) :
    Upholds fixed (c.Respects fixed) (fun next => next.Respects fixed)
      (c.callBy library sites position count wanted) := by
  have hmono := Calls.monotone_respects fixed c
  refine next (of_mirrors fun _ => .top _) hmono fun v => ?_
  cases v with
  | closure id =>
    refine bind ((loadClosure id).also (fun _ _ => trivial) hmono) fun f => ?_
    have hboth : Monotone fun size => f.code.Respects fixed size f.cells ∧ c.Respects fixed size :=
      fun _ _ hsize h => ⟨h.1.mono hsize, hmono hsize h.2⟩
    refine bind ((activate f _ _ _ _).also (fun _ h => h.1) hboth) fun a => ?_
    exact pure fun size h b hb => (List.mem_cons.mp hb).elim (fun heq => heq ▸ h.1) (h.2.2 b)
  | builtin b =>
    refine next (of_mirrors fun _ => .taken _ _) hmono fun args => next (h b args _) hmono fun values => ?_
    refine next (of_mirrors fun _ => .receive _ values wanted) hmono fun flow => ?_
    exact pure fun _ h => Calls.respects_follow flow h
  | _ => exact throw _

theorem tailCallBy (h : ∀ b args caller, UpholdsAny fixed (library b args caller)) (c : Calls)
    (sites : Sites) (position count : Nat) :
    Upholds fixed (c.Respects fixed) (Calls.GoesOn fixed) (c.tailCallBy library sites position count) := by
  have hmono := Calls.monotone_respects fixed c
  refine next (of_mirrors fun _ => .closeFrom _) hmono fun _ => next (of_mirrors fun _ => .top _) hmono
    fun v => ?_
  cases v with
  | closure id =>
    refine bind ((loadClosure id).also (fun _ _ => trivial) hmono) fun f => ?_
    have hboth : Monotone fun size => f.code.Respects fixed size f.cells ∧ c.Respects fixed size :=
      fun _ _ hsize h => ⟨h.1.mono hsize, hmono hsize h.2⟩
    dsimp only
    split
    · exact throw _
    · refine next (of_mirrors fun _ => .moveDown _ _ _) hboth fun _ => ?_
      refine bind ((beginAt f _ _ _).also (fun _ h => h.1) hboth) fun a => pure ?_
      rintro size h _ ⟨⟩
      exact fun b hb => (List.mem_cons.mp hb).elim (fun heq => heq ▸ h.1)
        fun hb => h.2.2 b (List.mem_cons_of_mem _ hb)
  | builtin b =>
    exact next (of_mirrors fun _ => .taken _ _) hmono fun args => next (h b args _) hmono
      fun values => finish c values
  | _ => exact throw _

theorem goOnBy (h : ∀ b args caller, UpholdsAny fixed (library b args caller)) (c : Calls) (sites : Sites)
    (flow : Flow) :
    Upholds fixed (c.Respects fixed) (Calls.GoesOn fixed) (c.goOnBy library sites flow) := by
  have hmono := Calls.monotone_respects fixed c
  cases flow with
  | call position count wanted =>
    show Upholds fixed _ _ (Sum.inl <$> c.callBy library sites position count wanted)
    rw [map_eq_pure_bind]
    refine bind (callBy h c _ position count wanted) fun next => pure ?_
    rintro size hnext _ ⟨⟩
    exact hnext
  | tailCall position count => exact tailCallBy h c _ position count
  | give position count =>
    exact next (of_mirrors fun _ => .closeFrom _) hmono fun _ => next (of_mirrors fun _ => .taken _ _) hmono
      fun values => finish c values
  | _ =>
    refine pure ?_
    rintro size h _ ⟨⟩
    exact Calls.respects_follow _ h

/-- A snapshot finds the fixed variables as they are. -/
theorem watch (deed : Deed) : UpholdsAny fixed (watch deed : Run (Watched σ) Unit) := by
  intro m hm _
  refine ⟨⟨⟨hm.memory, hm.captured, fun p hp => ?_⟩, Nat.le_refl _⟩, trivial⟩
  rcases List.mem_append.mp hp with hp | hp
  · exact hm.record p hp
  · cases List.mem_singleton.mp hp
    exact hm.memory.holds

variable [Host σ]

theorem perform (r : Request) : UpholdsAny fixed (perform r : Run (Watched σ) Unit) := by
  intro m hm _
  have hwatched : Host.perform m.host r = (Host.perform m.host.host r).map fun host => { m.host with host } :=
    rfl
  unfold Script.perform
  simp only [EStateM.run_bind, EStateM.run_get, hwatched]
  cases Host.perform m.host.host r with
  | error e => exact of_mirrors (fun _ => .fail (.refused e)) m hm trivial
  | ok host => exact ⟨⟨⟨hm.memory, hm.captured, hm.record⟩, Nat.le_refl _⟩, trivial⟩

theorem runBuiltin (h : ∀ f args caller, UpholdsAny fixed (invoke f args caller)) (b : Builtin)
    (args : List Value) (caller : Caller) : UpholdsAny fixed (runBuiltin invoke b args caller) :=
  of_mirrors fun size => .runBuiltin_of_perform (fun f args caller => (h f args caller).mirrors size)
    (fun r => (perform r).mirrors size) b args caller

/-- The next instruction, which is noted first. -/
theorem watchedStep (h : ∀ f args caller, UpholdsAny fixed (invoke f args caller)) (outer : Sites)
    (c : Calls) : Upholds fixed (c.Respects fixed) (Calls.GoesOn fixed) (c.watchedStep invoke outer) := by
  have hmono := Calls.monotone_respects fixed c
  refine next (watch _) hmono fun _ => ?_
  rw [Calls.step_eq_stepBy]
  unfold Calls.stepBy
  split
  · exact finish c []
  · next i hi =>
    refine bind ((execute h c.current _ (Array.mem_of_getElem? hi)).also (fun _ h => h.current) hmono)
      fun flow => ?_
    exact (goOnBy (runBuiltin h) c _ flow).mono (fun _ h => h.2) fun _ _ h => h

/-- A call of a value keeps variables fixed. -/
theorem watchedWithin (levels : Nat) (f : Value) (args : List Value) (caller : Caller) :
    UpholdsAny fixed (Script.watchedWithin levels f args caller : Run (Watched σ) (List Value)) := by
  -- what a function calls from inside a built-in function is one level deeper
  induction levels generalizing f args caller with
  | zero => exact throw _
  | succ levels ih =>
    cases f with
    | closure id =>
      refine bind (loadClosure id) fun f => ?_
      have hmono : Monotone fun size => f.code.Respects fixed size f.cells := Code.monotone_respects _ _
      refine next (of_mirrors fun _ => .grow _) hmono fun _ => next (of_mirrors fun _ => .putAll _ args) hmono
        fun _ => bind (activate f _ _ _ _) fun a => ?_
      refine (iterate (P := Calls.Respects fixed) (watchedStep ih caller.sites) maxSteps ⟨a, []⟩).mono
        (fun size ha b hb => ?_) fun _ _ h => h
      rcases List.mem_cons.mp hb with rfl | hb
      · exact ha
      · cases hb
    | builtin b => exact bind (watch _) fun _ => runBuiltin ih b args caller
    | _ => exact throw _

theorem watchedInvoke (f : Value) (args : List Value) (caller : Caller) :
    UpholdsAny fixed (Script.watchedInvoke f args caller : Run (Watched σ) (List Value)) :=
  watchedWithin maxLevels f args caller

end Upholds

end BuildComposition.Script
