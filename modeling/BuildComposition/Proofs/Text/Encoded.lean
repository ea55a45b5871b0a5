import BuildComposition.Text.Utf8
import Mathlib.Algebra.GroupWithZero.Nat

/-!
# Reading the octets of a text

The octets of a text are read as this text.  A character beyond ASCII is a lead octet and continuation
octets, each of which holds six bits of the number of the character; the scan collects the bits again, and
the ranges that the lead octet announces hold for every character.

## Main definitions

* `Utf8.continuation`: the last octets of a character
* `Utf8.Opens`: a lead octet and what it announces

## Main results

* `Utf8.scan_utf8EncodeChar`: the octets of a character are one piece
* `Utf8.decode?_encode`, `Utf8.encode_injective`: the octets of a text are read as the text, and determine it
-/

namespace BuildComposition.Utf8

/-! ## One character -/

/-- The last `count` octets of the character with a number, which hold six bits each. -/
def continuation (n : Nat) : Nat → Bytes
  | 0 => []
  | count + 1 => UInt8.ofNat (n / 64 ^ count % 64 + 0x80) :: continuation n count

theorem toNat_continuation (m : Nat) : (UInt8.ofNat (m % 64 + 0x80)).toNat = m % 64 + 0x80 :=
  Nat.mod_eq_of_lt (by omega)

theorem bits_div (n count : Nat) :
    n / 64 ^ (count + 1) * 64 + n / 64 ^ count % 64 = n / 64 ^ count := by
  rw [Nat.pow_succ, ← Nat.div_div_eq_div_mul]
  exact Nat.div_add_mod' ..

/-- An octet in the range that was announced adds its six bits. -/
theorem step_continuation {p : Pending} {m : Nat} (hlow : p.low.toNat ≤ m % 64 + 0x80)
    (hhigh : m % 64 + 0x80 ≤ p.high.toNat) : step (some p) (UInt8.ofNat (m % 64 + 0x80)) =
      if p.owed ≤ 1 then ([.scalar (Char.ofNat (p.bits * 64 + m % 64))], none)
      else ([], some ⟨p.owed - 1, 0x80, 0xBF, p.bits * 64 + m % 64, p.seen + 1⟩) := by
  have hrange : p.low ≤ UInt8.ofNat (m % 64 + 0x80) ∧ UInt8.ofNat (m % 64 + 0x80) ≤ p.high := by
    rw [UInt8.le_iff_toNat_le, UInt8.le_iff_toNat_le, toNat_continuation]
    exact ⟨hlow, hhigh⟩
  rw [step, if_pos hrange, toNat_continuation, Nat.add_sub_cancel]

/-- Continuation octets complete the character whose first bits were read, if the first of them is in the
range that was announced. -/
theorem scan_continuation (n count : Nat) {low high : UInt8} (seen : Nat) (rest : Bytes)
    (hlow : low.toNat ≤ n / 64 ^ count % 64 + 0x80)
    (hhigh : n / 64 ^ count % 64 + 0x80 ≤ high.toNat) :
    scan (some ⟨count + 1, low, high, n / 64 ^ (count + 1), seen⟩)
        (continuation n (count + 1) ++ rest) =
      .scalar (Char.ofNat n) :: scan none rest := by
  induction count generalizing low high seen with
  | zero =>
    rw [continuation, List.cons_append, scan, step_continuation hlow hhigh, if_pos (Nat.le_refl 1),
      bits_div]
    simp [continuation]
  | succ count ih =>
    have hlast : n / 64 ^ count % 64 + 0x80 ≤ (0xBF : UInt8).toNat := by
      have hval : (0xBF : UInt8).toNat = 0xBF := rfl
      omega
    rw [continuation, List.cons_append, scan, step_continuation hlow hhigh,
      if_neg (by simp), bits_div]
    exact ih (seen + 1) (Nat.le_add_left ..) hlast

/-- The octet is the lead of the character with a number, which `count + 1` octets follow. -/
def Opens (b : UInt8) (n count : Nat) : Prop :=
  ∃ l, lead? b = some l ∧ l.following = count + 1 ∧ l.bits = n / 64 ^ (count + 1) ∧
    l.low.toNat ≤ n / 64 ^ count % 64 + 0x80 ∧ n / 64 ^ count % 64 + 0x80 ≤ l.high.toNat

theorem Opens.scan_eq {b : UInt8} {n count : Nat} (h : Opens b n count) (rest : Bytes) :
    scan none (b :: (continuation n (count + 1) ++ rest)) =
      .scalar (Char.ofNat n) :: scan none rest := by
  obtain ⟨⟨following, low, high, bits⟩, hlead, hfollowing, hbits, hlow, hhigh⟩ := h
  simp only at hfollowing hbits hlow hhigh
  subst hfollowing hbits
  have hascii : ¬b < 0x80 := fun hb => by
    rw [lead?, if_pos (UInt8.lt_trans hb (by decide))] at hlead
    cases hlead
  rw [scan, step, openWith, if_neg hascii, hlead]
  exact scan_continuation n count 1 rest hlow hhigh

/-! ## Lead octets -/

theorem lead?_two {b : UInt8} (h : 0xC2 ≤ b.toNat) (h' : b.toNat < 0xE0) :
    lead? b = some ⟨1, 0x80, 0xBF, b.toNat - 0xC0⟩ := by
  have hlow : ¬b < 0xC2 := by simpa [UInt8.lt_iff_toNat_lt] using h
  have hhigh : b < 0xE0 := by simpa [UInt8.lt_iff_toNat_lt] using h'
  rw [lead?, if_neg hlow, if_pos hhigh]

theorem lead?_three {b : UInt8} (h : 0xE0 ≤ b.toNat) (h' : b.toNat < 0xF0) :
    lead? b = some ⟨2, if b.toNat = 0xE0 then 0xA0 else 0x80,
      if b.toNat = 0xED then 0x9F else 0xBF, b.toNat - 0xE0⟩ := by
  unfold lead?
  simp only [UInt8.lt_iff_toNat_lt, ← UInt8.toNat_inj, UInt8.reduceToNat]
  rw [if_neg (by omega), if_neg (by omega)]
  by_cases hfirst : b.toNat = 0xE0
  · simp [hfirst]
  by_cases hsurrogate : b.toNat = 0xED
  · simp [hsurrogate]
  · simp [hfirst, hsurrogate, h']

theorem lead?_four {b : UInt8} (h : 0xF0 ≤ b.toNat) (h' : b.toNat < 0xF5) :
    lead? b = some ⟨3, if b.toNat = 0xF0 then 0x90 else 0x80,
      if b.toNat = 0xF4 then 0x8F else 0xBF, b.toNat - 0xF0⟩ := by
  unfold lead?
  simp only [UInt8.lt_iff_toNat_lt, ← UInt8.toNat_inj, UInt8.reduceToNat]
  rw [if_neg (by omega), if_neg (by omega), if_neg (by omega), if_neg (by omega), if_neg (by omega)]
  by_cases hfirst : b.toNat = 0xF0
  · simp [hfirst]
  by_cases hlast : b.toNat = 0xF4
  · simp [hlast]
  · simp [hfirst, hlast, (by omega : b.toNat < 0xF4)]

theorem opens_two {n : Nat} (h : 0x80 ≤ n) (h' : n < 0x800) :
    Opens (UInt8.ofNat (n / 64 % 32 + 0xC0)) n 0 := by
  have hval : (UInt8.ofNat (n / 64 % 32 + 0xC0)).toNat = n / 64 + 0xC0 := by
    rw [UInt8.toNat_ofNat']
    omega
  refine ⟨_, lead?_two (by omega) (by omega), rfl, ?_, ?_, ?_⟩
  · show _ - 0xC0 = n / 64
    omega
  · simp
  · simp
    omega

/-- The first six bits of continuation are not those of a shorter sequence, nor those of a surrogate. -/
theorem opens_three {n : Nat} (h : 0x800 ≤ n) (h' : n < 0x10000) (hn : n.isValidChar) :
    Opens (UInt8.ofNat (n / 4096 % 16 + 0xE0)) n 1 := by
  have hval : (UInt8.ofNat (n / 4096 % 16 + 0xE0)).toNat = n / 4096 + 0xE0 := by
    rw [UInt8.toNat_ofNat']
    omega
  unfold Nat.isValidChar at hn
  refine ⟨_, lead?_three (by omega) (by omega), rfl, ?_, ?_, ?_⟩
  · show _ - 0xE0 = n / 4096
    omega
  · dsimp only
    split
    · simp
      omega
    · simp
  · dsimp only
    split <;> (simp; omega)

theorem opens_four {n : Nat} (h : 0x10000 ≤ n) (h' : n < 0x110000) :
    Opens (UInt8.ofNat (n / 262144 % 8 + 0xF0)) n 2 := by
  have hval : (UInt8.ofNat (n / 262144 % 8 + 0xF0)).toNat = n / 262144 + 0xF0 := by
    rw [UInt8.toNat_ofNat']
    omega
  refine ⟨_, lead?_four (by omega) (by omega), rfl, ?_, ?_, ?_⟩
  · show _ - 0xF0 = n / 262144
    omega
  · dsimp only
    split
    · simp
      omega
    · simp
  · dsimp only
    split <;> (simp; omega)

/-! ## Texts -/

theorem encode_append (s t : String) : encode (s ++ t) = encode s ++ encode t := by
  simp [encode]

/-- The octets of a character beyond ASCII are its lead octet and its continuation. -/
theorem exists_opens {c : Char} (h : 0x80 ≤ c.toNat) : ∃ b count,
    String.utf8EncodeChar c = b :: continuation c.toNat (count + 1) ∧ Opens b c.toNat count := by
  have hvalid : c.toNat.isValidChar := c.valid
  have hbound : c.toNat < 0x110000 := by
    unfold Nat.isValidChar at hvalid
    omega
  have hone : ¬c.val.toNat ≤ 0x7F := Nat.not_le_of_lt h
  by_cases htwo : c.val.toNat ≤ 0x7FF
  · have hencode : String.utf8EncodeChar c = _ := (if_neg hone).trans (if_pos htwo)
    exact ⟨_, 0, hencode.trans (by simp [continuation]),
      opens_two h (Nat.lt_succ_of_le htwo)⟩
  have hlong : String.utf8EncodeChar c = _ := (if_neg hone).trans (if_neg htwo)
  by_cases hthree : c.val.toNat ≤ 0xFFFF
  · exact ⟨_, 1, (hlong.trans (if_pos hthree)).trans (by simp [continuation]),
      opens_three (Nat.lt_of_not_le htwo) (Nat.lt_succ_of_le hthree) hvalid⟩
  · exact ⟨_, 2, (hlong.trans (if_neg hthree)).trans (by simp [continuation]),
      opens_four (Nat.lt_of_not_le hthree) hbound⟩

/-- The octets of a character are one piece. -/
theorem scan_utf8EncodeChar (c : Char) (rest : Bytes) :
    scan none (String.utf8EncodeChar c ++ rest) = .scalar c :: scan none rest := by
  by_cases h : 0x80 ≤ c.toNat
  · obtain ⟨b, count, hencode, hopens⟩ := exists_opens h
    rw [hencode, List.cons_append, hopens.scan_eq, Char.ofNat_toNat]
  · have hencode : String.utf8EncodeChar c = [UInt8.ofNat c.toNat] :=
      if_pos (Nat.le_of_lt_succ (Nat.lt_of_not_le h))
    have hval : (UInt8.ofNat c.toNat).toNat = c.toNat := Nat.mod_eq_of_lt (by omega)
    have hascii : UInt8.ofNat c.toNat < 0x80 := by
      rw [UInt8.lt_iff_toNat_lt, hval]
      exact Nat.lt_of_not_le h
    rw [hencode, List.singleton_append, scan, step, openWith, if_pos hascii, hval,
      Char.ofNat_toNat]
    rfl

theorem pieces_encode (s : String) : pieces (encode s) = s.toList.map .scalar := by
  unfold pieces encode
  induction s.toList with
  | nil => rfl
  | cons c cs ih => rw [List.flatMap_cons, scan_utf8EncodeChar, ih, List.map_cons]

/-- The octets of a text are read as the text. -/
theorem decode?_encode (s : String) : decode? (encode s) = some s := by
  have hread : (s.toList.map Piece.scalar).mapM Piece.scalar? = some s.toList := by
    induction s.toList with
    | nil => rfl
    | cons c cs ih => simp [Piece.scalar?, ih]
  rw [decode?, pieces_encode, hread, Option.map_some, String.ofList_toList]

/-- Octets determine a text. -/
theorem encode_injective {s t : String} (h : encode s = encode t) : s = t := by
  have hread := decode?_encode s
  rw [h, decode?_encode, Option.some.injEq] at hread
  exact hread.symm

end BuildComposition.Utf8
