import BuildComposition.Proofs.Json.Tokens

/-!
# Reading what was written

Written forms of a value differ in the blanks that they put between tokens.  In each of them the brackets and
commas of lists and objects can be told from the values between them by one character that is no blank, so
that every form denotes the value.

## Main definitions

* `Layout`: where the blanks of a written form stand
* `Layout.chars`: the form of a value in a layout
* `Reader.ReadsBelow`: what a reader with a bound on the number of tokens reads as it was written

## Main results

* `Reader.readsBelow`: values, items and members are read as they were written
* `Layout.chars_compact`, `Layout.chars_indented`: the two written forms are those of two layouts
* `Layout.parse?_chars`: a value in any layout, with blanks behind it, denotes the value
* `parse?_compact`, `compact_injective`, `parse?_indented`: so do its compact and its indented form, and the
  compact form denotes no other one
-/

namespace BuildComposition.Json

/-! ## Layouts -/

/-- The characters are blanks. -/
def Reader.Blank (cs : List Char) : Prop := ∀ c ∈ cs, isBlank c = true

theorem Reader.Blank.nil : Blank [] := by simp [Blank]

theorem Reader.Blank.cons {c : Char} {cs : List Char} (hc : isBlank c = true) (hcs : Blank cs) :
    Blank (c :: cs) := by
  simpa [Blank, hc] using hcs

/-- Where the blanks of a written form stand. -/
structure Layout where
  /-- The blanks in front of an item, a member, or what closes them, by its level. -/
  gap : Nat → List Char
  /-- The blanks behind a colon. -/
  space : List Char
  blank_gap : ∀ level, Reader.Blank (gap level)
  blank_space : Reader.Blank space

namespace Layout

mutual

/-- The characters of a value that stands at a level. -/
def chars (l : Layout) (level : Nat) : Json → List Char
  | .arr (j :: rest) => '[' :: (l.gap (level + 1) ++ (chars l (level + 1) j ++ items l level rest))
  | .obj ((name, j) :: rest) =>
    '\x7b' :: (l.gap (level + 1) ++
      (quoted name ++ ':' :: (l.space ++ (chars l (level + 1) j ++ members l level rest))))
  | .null => ['n', 'u', 'l', 'l']
  | .bool true => ['t', 'r', 'u', 'e']
  | .bool false => ['f', 'a', 'l', 's', 'e']
  | .int n => integer n
  | .decimal m e => scientific m e
  | .str s => quoted s
  | .arr [] => ['[', ']']
  | .obj [] => ['\x7b', '\x7d']

/-- The items after the first, and the closing bracket. -/
def items (l : Layout) (level : Nat) : List Json → List Char
  | [] => l.gap level ++ [']']
  | j :: rest => ',' :: (l.gap (level + 1) ++ (chars l (level + 1) j ++ items l level rest))

/-- The members after the first, and the closing brace. -/
def members (l : Layout) (level : Nat) : List (String × Json) → List Char
  | [] => l.gap level ++ ['\x7d']
  | (name, j) :: rest =>
    ',' :: (l.gap (level + 1) ++
      (quoted name ++ ':' :: (l.space ++ (chars l (level + 1) j ++ members l level rest))))

end

/-- No blanks at all. -/
def compact : Layout := ⟨fun _ => [], [], fun _ => .nil, .nil⟩

/-- Each item on a line of its own, with two blanks per level. -/
def indented : Layout where
  gap := newLine
  space := [' ']
  blank_gap level := .cons rfl fun c hc => by
    rw [List.eq_of_mem_replicate hc]
    rfl
  blank_space := .cons rfl .nil

mutual

theorem chars_compact (level : Nat) : (j : Json) → compact.chars level j = compactChars j
  | .arr (j :: rest) => by
    rw [chars, compactChars, chars_compact, items_compact]
    rfl
  | .obj ((name, j) :: rest) => by
    rw [chars, compactChars, chars_compact, members_compact]
    rfl
  | .null | .bool true | .bool false | .int _ | .decimal _ _ | .str _ | .arr [] | .obj [] => rfl

theorem items_compact (level : Nat) : (js : List Json) → compact.items level js = compactItems js
  | [] => rfl
  | j :: rest => by
    rw [items, compactItems, chars_compact, items_compact]
    rfl

theorem members_compact (level : Nat) :
    (ms : List (String × Json)) → compact.members level ms = compactMembers ms
  | [] => rfl
  | (name, j) :: rest => by
    rw [members, compactMembers, chars_compact, members_compact]
    rfl

end

mutual

theorem chars_indented (level : Nat) : (j : Json) → indented.chars level j = indentedChars level j
  | .arr (j :: rest) => by
    rw [chars, indentedChars, chars_indented, items_indented, List.append_assoc]
    rfl
  | .obj ((name, j) :: rest) => by
    rw [chars, indentedChars, chars_indented, members_indented, List.append_assoc]
    rfl
  | .null | .bool true | .bool false | .int _ | .decimal _ _ | .str _ | .arr [] | .obj [] => rfl

theorem items_indented (level : Nat) :
    (js : List Json) → indented.items level js = indentedItems level js
  | [] => rfl
  | j :: rest => by
    rw [items, indentedItems, chars_indented, items_indented, List.append_assoc]
    rfl

theorem members_indented (level : Nat) :
    (ms : List (String × Json)) → indented.members level ms = indentedMembers level ms
  | [] => rfl
  | (name, j) :: rest => by
    rw [members, indentedMembers, chars_indented, members_indented, List.append_assoc]
    rfl

end

end Layout

namespace Reader

/-! ## Blanks -/

theorem skipBlank_cons {c : Char} (h : isBlank c = false) (cs : List Char) :
    skipBlank (c :: cs) = c :: cs := List.dropWhile_cons_of_neg (by simp [h])

theorem Blank.skipBlank_append {bs : List Char} (h : Blank bs) (cs : List Char) :
    skipBlank (bs ++ cs) = skipBlank cs := List.dropWhile_append_of_pos h

theorem Blank.value?_append {bs : List Char} (h : Blank bs) (fuel : Nat) (cs : List Char) :
    value? fuel (bs ++ cs) = value? fuel cs := by
  cases fuel with
  | zero => rfl
  | succ fuel => rw [value?, value?, h.skipBlank_append]

theorem Blank.items?_append {bs : List Char} (h : Blank bs) (fuel : Nat) (cs : List Char) :
    items? fuel (bs ++ cs) = items? fuel cs := by
  cases fuel with
  | zero => rfl
  | succ fuel => rw [items?, items?, h.value?_append]

theorem Blank.members?_append {bs : List Char} (h : Blank bs) (fuel : Nat) (cs : List Char) :
    members? fuel (bs ++ cs) = members? fuel cs := by
  cases fuel with
  | zero => rfl
  | succ fuel => rw [members?, members?, h.skipBlank_append]

/-- No number goes on with a blank. -/
theorem Blank.endsNumber_append {bs cs : List Char} (h : Blank bs) (hcs : EndsNumber cs) :
    EndsNumber (bs ++ cs) := by
  cases bs with
  | nil => exact hcs
  | cons b bs =>
    rintro c ⟨⟩
    have hb := h b List.mem_cons_self
    simp only [isBlank, Bool.or_eq_true, decide_eq_true_eq] at hb
    rcases hb with ((rfl | rfl) | rfl) | rfl <;> decide

/-! ## Values -/

/-- The character begins a number. -/
def BeginsNumber (c : Char) : Prop := c.isDigit = true ∨ c = '-'

theorem BeginsNumber.isBlank_eq {c : Char} (h : BeginsNumber c) : isBlank c = false := by
  rcases h with h | rfl
  · refine Bool.eq_false_iff.mpr fun hblank => ?_
    simp only [isBlank, Bool.or_eq_true, decide_eq_true_eq] at hblank
    rcases hblank with ((rfl | rfl) | rfl) | rfl <;> cases h
  · rfl

theorem exists_integer_eq_cons (n : Int) : ∃ c cs, integer n = c :: cs ∧ BeginsNumber c := by
  cases n with
  | ofNat n =>
    obtain ⟨c, cs, hcs, hc⟩ := exists_toDigits_eq_cons n
    exact ⟨c, cs, hcs, .inl hc⟩
  | negSucc n => exact ⟨'-', _, rfl, .inr rfl⟩

theorem value?_number {c : Char} (h : BeginsNumber c) (fuel : Nat) (cs : List Char) :
    value? (fuel + 1) (c :: cs) = number? (c :: cs) := by
  rw [value?, skipBlank_cons h.isBlank_eq]
  split
  case h_7 => rfl
  all_goals
    next heq =>
      cases heq
      rcases h with h | h <;> cases h

variable (l : Layout)

/-- A value begins with a character that is no blank and closes nothing. -/
theorem exists_chars_eq_cons (level : Nat) (j : Json) :
    ∃ c cs, l.chars level j = c :: cs ∧ isBlank c = false ∧ c ≠ ']' := by
  have hnumber : ∀ (n : Int) (more : List Char),
      ∃ c cs, integer n ++ more = c :: cs ∧ isBlank c = false ∧ c ≠ ']' := by
    intro n more
    obtain ⟨c, cs, hcs, hc⟩ := exists_integer_eq_cons n
    refine ⟨c, cs ++ more, by rw [hcs, List.cons_append], hc.isBlank_eq, ?_⟩
    rintro rfl
    rcases hc with hc | hc <;> cases hc
  cases j with
  | int n =>
    rw [Layout.chars, ← (integer n).append_nil]
    exact hnumber n []
  | decimal m e => exact hnumber m _
  | bool b => cases b <;> exact ⟨_, _, rfl, rfl, by decide⟩
  | arr items => cases items <;> exact ⟨_, _, rfl, rfl, by decide⟩
  | obj members => cases members <;> exact ⟨_, _, rfl, rfl, by decide⟩
  | null | str => exact ⟨_, _, rfl, rfl, by decide⟩

theorem endsNumber_items (level : Nat) (js : List Json) (rest : List Char) :
    EndsNumber (l.items level js ++ rest) := by
  cases js with
  | nil =>
    rw [Layout.items, List.append_assoc]
    exact (l.blank_gap level).endsNumber_append (by rintro c ⟨⟩; decide)
  | cons j js => rintro c ⟨⟩; decide

theorem endsNumber_members (level : Nat) (ms : List (String × Json)) (rest : List Char) :
    EndsNumber (l.members level ms ++ rest) := by
  cases ms with
  | nil =>
    rw [Layout.members, List.append_assoc]
    exact (l.blank_gap level).endsNumber_append (by rintro c ⟨⟩; decide)
  | cons m ms => rintro c ⟨⟩; decide

variable {l} {fuel : Nat}

theorem value?_arr {bs cs rest : List Char} {j : Json} {js : List Json} (hbs : Blank bs)
    (hcs : ∃ c cs', cs = c :: cs' ∧ isBlank c = false ∧ c ≠ ']')
    (h : items? fuel cs = some (j :: js, rest)) :
    value? (fuel + 1) ('[' :: (bs ++ cs)) = some (.arr (j :: js), rest) := by
  obtain ⟨c, cs', hcons, hblank, hclose⟩ := hcs
  rw [value?, skipBlank_cons rfl]
  simp only [hbs.items?_append, h, hbs.skipBlank_append]
  rw [hcons, skipBlank_cons hblank]
  split
  · next heq => exact absurd (List.cons.inj heq).1 hclose
  · rfl

theorem value?_obj {bs cs rest : List Char} {name : String} {j : Json} {ms : List (String × Json)}
    (hbs : Blank bs) (h : members? fuel (quoted name ++ cs) = some ((name, j) :: ms, rest)) :
    value? (fuel + 1) ('\x7b' :: (bs ++ (quoted name ++ cs))) =
      some (.obj ((name, j) :: ms), rest) := by
  rw [value?, skipBlank_cons rfl]
  simp only [hbs.members?_append, h, hbs.skipBlank_append]
  rfl

theorem items?_cons {j : Json} {js : List Json} {cs more rest : List Char}
    (h : value? fuel cs = some (j, ',' :: more)) (h' : items? fuel more = some (js, rest)) :
    items? (fuel + 1) cs = some (j :: js, rest) := by
  have hcomma : skipBlank (',' :: more) = ',' :: more := skipBlank_cons rfl more
  rw [items?, h]
  simp [hcomma, h']

theorem items?_single {j : Json} {bs cs rest : List Char} (hbs : Blank bs)
    (h : value? fuel cs = some (j, bs ++ ']' :: rest)) :
    items? (fuel + 1) cs = some ([j], rest) := by
  have hclose : skipBlank (bs ++ ']' :: rest) = ']' :: rest :=
    (hbs.skipBlank_append _).trans (skipBlank_cons rfl rest)
  rw [items?, h]
  simp [hclose]

theorem members?_cons {name : String} {j : Json} {ms : List (String × Json)}
    {bs cs more rest : List Char} (hbs : Blank bs) (h : value? fuel cs = some (j, ',' :: more))
    (h' : members? fuel more = some (ms, rest)) :
    members? (fuel + 1) (quoted name ++ ':' :: (bs ++ cs)) = some ((name, j) :: ms, rest) := by
  have hcolon : skipBlank (':' :: (bs ++ cs)) = ':' :: (bs ++ cs) := skipBlank_cons rfl _
  have hcomma : skipBlank (',' :: more) = ',' :: more := skipBlank_cons rfl more
  rw [members?, quoted, List.cons_append, skipBlank_cons rfl, List.append_assoc]
  simp [text?_quoted, hcolon, hbs.value?_append, h, hcomma, h']

theorem members?_single {name : String} {j : Json} {bs bs' cs rest : List Char} (hbs : Blank bs)
    (hbs' : Blank bs') (h : value? fuel cs = some (j, bs' ++ '\x7d' :: rest)) :
    members? (fuel + 1) (quoted name ++ ':' :: (bs ++ cs)) = some ([(name, j)], rest) := by
  have hcolon : skipBlank (':' :: (bs ++ cs)) = ':' :: (bs ++ cs) := skipBlank_cons rfl _
  have hclose : skipBlank (bs' ++ '\x7d' :: rest) = '\x7d' :: rest :=
    (hbs'.skipBlank_append _).trans (skipBlank_cons rfl rest)
  rw [members?, quoted, List.cons_append, skipBlank_cons rfl, List.append_assoc]
  simp [text?_quoted, hcolon, hbs.value?_append, h, hclose]

variable (l fuel)

/-- With a bound on the number of tokens, what is shorter than the bound is read as it was written in a
layout: values, items up to the closing bracket, and members up to the closing brace. -/
structure ReadsBelow : Prop where
  value : ∀ level j rest, (l.chars level j).length < fuel → EndsNumber rest →
    value? fuel (l.chars level j ++ rest) = some (j, rest)
  items : ∀ level j js rest, (l.chars (level + 1) j ++ l.items level js).length < fuel →
    items? fuel (l.chars (level + 1) j ++ (l.items level js ++ rest)) = some (j :: js, rest)
  members : ∀ level name j ms rest, (l.chars (level + 1) j ++ l.members level ms).length < fuel →
    members? fuel (quoted name ++ ':' ::
      (l.space ++ (l.chars (level + 1) j ++ (l.members level ms ++ rest)))) =
        some ((name, j) :: ms, rest)

variable {l fuel}

namespace ReadsBelow

theorem value_succ (h : ReadsBelow l fuel) (level : Nat) (j : Json) (rest : List Char)
    (hlength : (l.chars level j).length < fuel + 1) (hrest : EndsNumber rest) :
    value? (fuel + 1) (l.chars level j ++ rest) = some (j, rest) := by
  cases j with
  | null => rfl
  | bool b => cases b <;> rfl
  | int n =>
    obtain ⟨c, cs, hcs, hc⟩ := exists_integer_eq_cons n
    have hread := number?_integer hrest n
    rw [hcs] at hread
    rw [Layout.chars, hcs]
    exact (value?_number hc fuel _).trans hread
  | decimal m e =>
    obtain ⟨c, cs, hcs, hc⟩ := exists_integer_eq_cons m
    have hread := number?_scientific hrest.endsDigits m e
    rw [scientific, hcs] at hread
    rw [Layout.chars, scientific, hcs]
    exact (value?_number hc fuel _).trans hread
  | str s =>
    rw [Layout.chars, quoted, List.cons_append, List.append_assoc, value?, skipBlank_cons rfl]
    simp [text?_quoted]
  | arr items =>
    cases items with
    | nil => rfl
    | cons j js =>
      rw [Layout.chars, List.length_cons, List.length_append] at hlength
      obtain ⟨c, cs, hcs, hc⟩ := exists_chars_eq_cons l (level + 1) j
      rw [Layout.chars, List.cons_append, List.append_assoc, List.append_assoc]
      exact value?_arr (l.blank_gap _) ⟨c, _, congrArg (· ++ _) hcs, hc⟩
        (h.items level j js rest (by omega))
  | obj members =>
    cases members with
    | nil => rfl
    | cons member ms =>
      obtain ⟨name, j⟩ := member
      rw [Layout.chars, List.length_cons, List.length_append, List.length_append, List.length_cons,
        List.length_append] at hlength
      rw [Layout.chars]
      simp only [List.cons_append, List.append_assoc]
      exact value?_obj (l.blank_gap _) (h.members level name j ms rest (by omega))

theorem items_succ (h : ReadsBelow l fuel) (level : Nat) (j : Json) (js : List Json)
    (rest : List Char) (hlength : (l.chars (level + 1) j ++ l.items level js).length < fuel + 1) :
    items? (fuel + 1) (l.chars (level + 1) j ++ (l.items level js ++ rest)) =
      some (j :: js, rest) := by
  have hends := endsNumber_items l level js rest
  rw [List.length_append] at hlength
  cases js with
  | nil =>
    rw [Layout.items, List.length_append, List.length_singleton] at hlength
    rw [Layout.items, List.append_assoc] at hends ⊢
    exact items?_single (l.blank_gap level) (h.value _ j _ (by omega) hends)
  | cons k js =>
    rw [Layout.items, List.length_cons, List.length_append] at hlength
    rw [Layout.items, List.cons_append, List.append_assoc, List.append_assoc] at hends ⊢
    refine items?_cons (h.value _ j _ (by omega) hends) ?_
    rw [(l.blank_gap _).items?_append]
    exact h.items level k js rest (by omega)

theorem members_succ (h : ReadsBelow l fuel) (level : Nat) (name : String) (j : Json)
    (ms : List (String × Json)) (rest : List Char)
    (hlength : (l.chars (level + 1) j ++ l.members level ms).length < fuel + 1) :
    members? (fuel + 1) (quoted name ++ ':' ::
      (l.space ++ (l.chars (level + 1) j ++ (l.members level ms ++ rest)))) =
        some ((name, j) :: ms, rest) := by
  have hends := endsNumber_members l level ms rest
  rw [List.length_append] at hlength
  cases ms with
  | nil =>
    rw [Layout.members, List.length_append, List.length_singleton] at hlength
    rw [Layout.members, List.append_assoc] at hends ⊢
    exact members?_single l.blank_space (l.blank_gap level) (h.value _ j _ (by omega) hends)
  | cons member ms =>
    obtain ⟨next, k⟩ := member
    rw [Layout.members, List.length_cons, List.length_append, List.length_append, List.length_cons,
      List.length_append] at hlength
    rw [Layout.members] at hends ⊢
    simp only [List.cons_append, List.append_assoc] at hends ⊢
    refine members?_cons l.blank_space (h.value _ j _ (by omega) hends) ?_
    rw [(l.blank_gap _).members?_append]
    exact h.members level next k ms rest (by omega)

end ReadsBelow

theorem readsBelow (l : Layout) (fuel : Nat) : ReadsBelow l fuel := by
  induction fuel with
  | zero => exact ⟨fun _ _ _ h => by omega, fun _ _ _ _ h => by omega, fun _ _ _ _ _ h => by omega⟩
  | succ fuel ih => exact ⟨ih.value_succ, ih.items_succ, ih.members_succ⟩

end Reader

/-! ## Complete texts -/

/-- A value in a layout, with blanks behind it, denotes the value. -/
theorem Layout.parse?_chars (l : Layout) (level : Nat) (j : Json) {bs : List Char}
    (hbs : Reader.Blank bs) : parse? (String.ofList (l.chars level j ++ bs)) = some j := by
  have hends : Reader.EndsNumber bs := by
    rw [← bs.append_nil]
    exact hbs.endsNumber_append (by rintro c ⟨⟩)
  have hread : Reader.value? ((l.chars level j ++ bs).length + 1) (l.chars level j ++ bs) =
      some (j, bs) := by
    refine (Reader.readsBelow l _).value level j bs ?_ hends
    rw [List.length_append]
    omega
  have hskip : Reader.skipBlank bs = [] := by
    rw [← bs.append_nil, hbs.skipBlank_append]
    rfl
  unfold parse?
  simp only [String.toList_ofList]
  rw [hread]
  exact if_pos hskip

/-- The compact form of a value denotes the value. -/
theorem parse?_compact (j : Json) : parse? j.compact = some j := by
  have hread := Layout.compact.parse?_chars 0 j .nil
  rwa [List.append_nil, Layout.chars_compact] at hread

theorem compact_injective {j k : Json} (h : j.compact = k.compact) : j = k := by
  have hj := parse?_compact j
  rw [h, parse?_compact, Option.some.injEq] at hj
  exact hj.symm

/-- The indented form of a value, with an end of line, denotes the value. -/
theorem parse?_indented (j : Json) : parse? (j.indented ++ "\n") = some j := by
  have hend : Reader.Blank ['\n'] := .cons rfl .nil
  have hread := Layout.indented.parse?_chars 0 j hend
  rwa [Layout.chars_indented, String.ofList_append] at hread

end BuildComposition.Json
