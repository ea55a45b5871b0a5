import BuildComposition.Json.Printer
import BuildComposition.Json.Reader
import Mathlib.Data.List.TakeDrop

/-!
# Reading numbers and texts

Numbers end where no character goes on with them, and each character of a text is read from its own escape.

## Main definitions

* `Reader.EndsNumber`: what may follow a number

## Main results

* `Reader.number?_integer`, `Reader.number?_scientific`, `Reader.text?_quoted`: numbers and texts are read
  as they were written
-/

namespace BuildComposition.Json

namespace Reader

/-! ## Numbers -/

/-- No digit comes next. -/
def EndsDigits (rest : List Char) : Prop := ∀ c ∈ rest.head?, c.isDigit = false

/-- Nothing comes next that could go on with a number. -/
def EndsNumber (rest : List Char) : Prop :=
  ∀ c ∈ rest.head?, c.isDigit = false ∧ c ≠ '.' ∧ c ≠ 'e' ∧ c ≠ 'E'

theorem EndsNumber.endsDigits {rest : List Char} (h : EndsNumber rest) : EndsDigits rest :=
  fun c hc => (h c hc).1

/-- The first character of a number in decimal is a digit. -/
theorem exists_toDigits_eq_cons (n : Nat) :
    ∃ c cs, Nat.toDigits 10 n = c :: cs ∧ c.isDigit = true := by
  obtain ⟨c, cs, h⟩ := List.exists_cons_of_ne_nil (@Nat.toDigits_ne_nil n 10)
  have hmem : c ∈ Nat.toDigits 10 n := by simp [h]
  exact ⟨c, cs, h, Nat.isDigit_of_mem_toDigits (by decide) (by decide) hmem⟩

theorem digits?_toDigits {rest : List Char} (h : EndsDigits rest) (n : Nat) :
    digits? (Nat.toDigits 10 n ++ rest) = some (Nat.toDigits 10 n, rest) := by
  have hdigits : ∀ c ∈ Nat.toDigits 10 n, c.isDigit = true :=
    fun c hc => Nat.isDigit_of_mem_toDigits (by decide) (by decide) hc
  have hspan : (Nat.toDigits 10 n ++ rest).span Char.isDigit = (Nat.toDigits 10 n, rest) := by
    rw [List.span_eq_takeWhile_dropWhile, List.takeWhile_append_of_pos hdigits,
      List.dropWhile_append_of_pos hdigits]
    cases rest with
    | nil => simp
    | cons c rest =>
      have hc : ¬c.isDigit = true := by simp [h c rfl]
      rw [List.takeWhile_cons_of_neg hc, List.dropWhile_cons_of_neg hc, List.append_nil]
  obtain ⟨c, cs, hcs, -⟩ := exists_toDigits_eq_cons n
  rw [digits?, hspan, hcs]

theorem signed?_integer {rest : List Char} (h : EndsDigits rest) (n : Int) :
    signed? (integer n ++ rest) = some (n, rest) := by
  cases n with
  | ofNat n =>
    -- a digit is no sign
    obtain ⟨c, cs, hcs, hc⟩ := exists_toDigits_eq_cons n
    rw [integer, hcs, List.cons_append, signed?, ← List.cons_append, ← hcs, digits?_toDigits h]
    · simp [Nat.ofDigitChars_ten_toDigits]
    · rintro _ ⟨⟩
      cases hc
    · rintro _ ⟨⟩
      cases hc
  | negSucc n =>
    rw [integer, List.cons_append, signed?, digits?_toDigits h]
    simp [Nat.ofDigitChars_ten_toDigits, Int.negSucc_eq]

theorem fraction?_eq_none {rest : List Char} (h : ∀ c ∈ rest.head?, c ≠ '.') :
    fraction? rest = some (none, rest) := by
  rw [fraction?]
  rintro _ rfl
  exact h '.' rfl rfl

theorem exponent?_eq_none {rest : List Char} (h : EndsNumber rest) :
    exponent? rest = some (none, rest) := by
  rw [exponent?]
  · rintro _ rfl
    exact (h 'e' rfl).2.2.1 rfl
  · rintro _ rfl
    exact (h 'E' rfl).2.2.2 rfl

/-- The value of a sign and a number without one. -/
def withSign (negative : Bool) (n : Nat) : Int := if negative then -n else n

theorem magnitude?_toDigits {rest : List Char} (h : EndsNumber rest) (negative : Bool) (n : Nat) :
    magnitude? negative (Nat.toDigits 10 n ++ rest) = some (.int (withSign negative n), rest) := by
  rw [magnitude?, digits?_toDigits h.endsDigits]
  simp [fraction?_eq_none fun c hc => (h c hc).2.1, exponent?_eq_none h,
    Nat.ofDigitChars_ten_toDigits, withSign]

theorem magnitude?_scientific {rest : List Char} (h : EndsDigits rest) (negative : Bool) (n : Nat)
    (e : Int) : magnitude? negative (Nat.toDigits 10 n ++ 'e' :: (integer e ++ rest)) =
      some (.decimal (withSign negative n) e, rest) := by
  have hends : EndsDigits ('e' :: (integer e ++ rest)) := by
    rintro c ⟨⟩
    rfl
  have hfraction : fraction? ('e' :: (integer e ++ rest)) =
      some (none, 'e' :: (integer e ++ rest)) := by
    refine fraction?_eq_none ?_
    rintro c ⟨⟩
    decide
  rw [magnitude?, digits?_toDigits hends]
  simp [hfraction, exponent?, signed?_integer h, Nat.ofDigitChars_ten_toDigits, withSign]

theorem number?_toDigits (n : Nat) (rest : List Char) :
    number? (Nat.toDigits 10 n ++ rest) = magnitude? false (Nat.toDigits 10 n ++ rest) := by
  obtain ⟨c, cs, hcs, hc⟩ := exists_toDigits_eq_cons n
  rw [hcs, List.cons_append, number?]
  rintro _ ⟨⟩
  cases hc

theorem number?_integer {rest : List Char} (h : EndsNumber rest) (n : Int) :
    number? (integer n ++ rest) = some (.int n, rest) := by
  cases n with
  | ofNat n => rw [integer, number?_toDigits, magnitude?_toDigits h]; rfl
  | negSucc n =>
    rw [integer, List.cons_append, number?, magnitude?_toDigits h]
    simp [withSign, Int.negSucc_eq]

theorem number?_scientific {rest : List Char} (h : EndsDigits rest) (m e : Int) :
    number? (scientific m e ++ rest) = some (.decimal m e, rest) := by
  cases m with
  | ofNat m =>
    rw [scientific, integer, List.append_assoc, List.cons_append, number?_toDigits,
      magnitude?_scientific h]
    rfl
  | negSucc m =>
    rw [scientific, integer, List.cons_append, List.cons_append, List.append_assoc,
      List.cons_append, number?, magnitude?_scientific h]
    simp [withSign, Int.negSucc_eq]

/-! ## Texts -/

theorem not_surrogate (c : Char) : ¬(0xD800 ≤ c.toNat ∧ c.toNat < 0xE000) := by
  have hvalid := c.valid
  unfold UInt32.isValidChar Nat.isValidChar at hvalid
  unfold Char.toNat
  omega

/-- The numbers of characters are no surrogates, so that each is a character again. -/
theorem joinSurrogates_map_toNat (cs : List Char) : joinSurrogates (cs.map Char.toNat) = cs := by
  induction cs with
  | nil => rfl
  | cons c cs ih =>
    have hc := not_surrogate c
    cases cs with
    | nil => simp only [List.map_cons, List.map_nil, joinSurrogates, if_neg hc, Char.ofNat_toNat]
    | cons d cs =>
      have hpair : ¬(0xD800 ≤ c.toNat ∧ c.toNat < 0xDC00 ∧ 0xDC00 ≤ d.toNat ∧ d.toNat < 0xE000) := by
        omega
      rw [List.map_cons] at ih
      rw [List.map_cons, List.map_cons, joinSurrogates, if_neg hpair, if_neg hc, Char.ofNat_toNat, ih]

/-- Reads one more code point in front of others. -/
def readUnit (u : Nat) (read : Option (List Nat × List Char)) : Option (List Nat × List Char) :=
  read.map fun (us, tail) => (u :: us, tail)

theorem units?_short {e : Char} {u : Nat} (h : shortEscape? e = some u) (rest : List Char) :
    units? ('\\' :: e :: rest) = readUnit u (units? rest) := by
  rw [units?, h]
  · cases units? rest <;> rfl
  · rintro _ _ _ _ _ rfl
    cases h

/-- The two hexadecimal digits of a number below 32. -/
theorem codeUnit?_digitChar : ∀ n < 0x20,
    codeUnit? '0' '0' (Nat.digitChar (n / 16)) (Nat.digitChar (n % 16)) = some n := by
  decide

theorem units?_control {c : Char} (h : c.toNat < 0x20) (rest : List Char) :
    units? ('\\' :: 'u' :: '0' :: '0' :: Nat.digitChar (c.toNat / 16) ::
      Nat.digitChar (c.toNat % 16) :: rest) = readUnit c.toNat (units? rest) := by
  rw [units?, codeUnit?_digitChar c.toNat h]
  cases units? rest <;> rfl

theorem units?_ordinary {c : Char} (hquote : c ≠ '"') (hbackslash : c ≠ '\\')
    (h : ¬c.toNat < 0x20) (rest : List Char) :
    units? (c :: rest) = readUnit c.toNat (units? rest) := by
  rw [units?, if_neg h]
  · cases units? rest <;> rfl
  · exact hquote
  · rintro _ _ _ _ _ rfl
    exact absurd rfl hbackslash
  · rintro _ _ rfl
    exact absurd rfl hbackslash

/-- The escape of a character is read as the character. -/
theorem units?_escape (c : Char) (rest : List Char) :
    units? (escape c ++ rest) = readUnit c.toNat (units? rest) := by
  unfold escape
  split
  · next h => subst h; exact units?_short rfl rest
  split
  · next h => subst h; exact units?_short rfl rest
  split
  · next h => subst h; exact units?_short rfl rest
  split
  · next h => subst h; exact units?_short rfl rest
  split
  · next h => subst h; exact units?_short rfl rest
  split
  · next h => rw [h]; exact units?_short rfl rest
  split
  · next h => rw [h]; exact units?_short rfl rest
  split
  · next h => exact units?_control h rest
  · next hquote hbackslash _ _ _ _ _ h => exact units?_ordinary hquote hbackslash h rest

theorem units?_escapes (cs rest : List Char) :
    units? (cs.flatMap escape ++ '"' :: rest) = some (cs.map Char.toNat, rest) := by
  induction cs with
  | nil => rfl
  | cons c cs ih => rw [List.flatMap_cons, List.append_assoc, units?_escape, ih]; rfl

/-- A text in quotes is read as the text. -/
theorem text?_quoted (s : String) (rest : List Char) :
    text? (s.toList.flatMap escape ++ '"' :: rest) = some (s, rest) := by
  rw [text?, units?_escapes]
  simp [joinSurrogates_map_toNat]

end Reader

end BuildComposition.Json
