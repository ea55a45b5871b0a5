import BuildComposition.Text.Utf8

/-!
# Texts without characters beyond ASCII

The pieces of a byte string are single octets exactly where it is ASCII, so that a text of such characters
is read from its own octets alone, malformed byte strings included.

## Main definitions

* `Utf8.isPlain`: the characters that such a text is made of
* `Utf8.Pending.Beyond`: what is known of a character that is not finished

## Main results

* `Utf8.lossy_eq_iff`: the byte strings that are read as such a text
-/

namespace BuildComposition.Utf8

/-- The character is one of ASCII, and not the one with the number zero. -/
def isPlain (c : Char) : Bool := 0 < c.toNat && c.toNat < 0x80

theorem isPlain_iff {c : Char} : isPlain c = true ↔ 0 < c.toNat ∧ c.toNat < 0x80 := by
  simp [isPlain]

/-- Whatever completes the character, its number is beyond ASCII. -/
def Pending.Beyond (p : Pending) : Prop :=
  (if p.owed ≤ 1 then 0x80 else 2) ≤ p.bits * 64 + (p.low.toNat - 0x80)

theorem beyond_of_lead? {b : UInt8} {l : Lead} (h : lead? b = some l) :
    Pending.Beyond ⟨l.following, l.low, l.high, l.bits, 1⟩ := by
  unfold lead? at h
  unfold Pending.Beyond
  -- the least character of each kind of lead octet
  repeat' split at h
  all_goals cases h
  all_goals simp [UInt8.lt_iff_toNat_lt, ← UInt8.toNat_inj] at *
  all_goals omega

theorem toNat_ofNat (n : Nat) : (Char.ofNat n).toNat = if n.isValidChar then n else 0 := by
  by_cases h : n.isValidChar
  · have hchar : Char.ofNat n = Char.ofNatAux n h := dif_pos h
    rw [hchar, if_pos h]
    show (BitVec.ofNatLT n _).toNat = n
    exact BitVec.toNat_ofNatLT ..
  · have hchar : Char.ofNat n = ⟨0, .inl (by decide)⟩ := dif_neg h
    rw [hchar, if_neg h]
    rfl

/-- The number of no character that is made of several octets belongs to ASCII. -/
theorem isPlain_ofNat {n : Nat} (h : 0x80 ≤ n) : isPlain (Char.ofNat n) = false := by
  unfold isPlain
  rw [toNat_ofNat]
  split
  · simp
    omega
  · rfl

/-- The character that a piece is read as. -/
def Piece.read (p : Piece) : Char := p.scalar?.getD (Char.ofNat 0xFFFD)

theorem Piece.read_scalar (c : Char) : (scalar c).read = c := rfl

theorem lossy_eq (bs : Bytes) : lossy bs = String.ofList ((pieces bs).map Piece.read) := rfl

/-- What begins between two characters and is not ASCII gives no character of ASCII. -/
theorem not_plain_scan {q : Pending} (hq : q.Beyond) (bs : Bytes) :
    ∃ p ∈ scan (some q) bs, isPlain p.read = false := by
  induction bs generalizing q with
  | nil => exact ⟨_, List.mem_singleton_self _, isPlain_ofNat (n := 0xFFFD) (by decide)⟩
  | cons b rest ih =>
    rw [scan]
    simp only [step]
    unfold Pending.Beyond at hq
    split
    · next hb =>
      -- the octet belongs to the character
      rw [UInt8.le_iff_toNat_le] at hb
      split
      · next howed =>
        rw [if_pos howed] at hq
        have hbits : 0x80 ≤ q.bits * 64 + (b.toNat - 0x80) := by omega
        refine ⟨.scalar (Char.ofNat (q.bits * 64 + (b.toNat - 0x80))), by simp, ?_⟩
        rw [Piece.read_scalar]
        exact isPlain_ofNat hbits
      · next howed =>
        rw [if_neg howed] at hq
        have hmore : Pending.Beyond ⟨q.owed - 1, 0x80, 0xBF, q.bits * 64 + (b.toNat - 0x80),
            q.seen + 1⟩ := by
          have hlow : (0x80 : UInt8).toNat = 0x80 := rfl
          unfold Pending.Beyond
          simp only [hlow]
          split <;> omega
        obtain ⟨p, hp, hplain⟩ := ih hmore
        exact ⟨p, List.mem_append_right _ hp, hplain⟩
    · exact ⟨.invalid q.seen, by simp, isPlain_ofNat (n := 0xFFFD) (by decide)⟩

/-- A character of ASCII is one octet. -/
theorem utf8EncodeChar_of_isPlain {c : Char} (h : isPlain c = true) :
    String.utf8EncodeChar c = [UInt8.ofNat c.toNat] := by
  obtain ⟨-, hlt⟩ := isPlain_iff.mp h
  have hle : c.val.toNat ≤ 127 := Nat.le_of_lt_succ hlt
  unfold String.utf8EncodeChar
  simp only [hle, if_true]
  rfl

/-- Octets that are read as characters of ASCII are these characters. -/
theorem scan_eq_iff {bs : Bytes} {cs : List Char} (hcs : ∀ c ∈ cs, isPlain c = true) :
    (scan none bs).map Piece.read = cs ↔ bs = cs.flatMap String.utf8EncodeChar := by
  induction bs generalizing cs with
  | nil =>
    cases cs with
    | nil => simp [scan]
    | cons c cs => simp [scan, utf8EncodeChar_of_isPlain (hcs c List.mem_cons_self)]
  | cons b rest ih =>
    rw [scan]
    simp only [step, openWith]
    split
    · next hb =>
      rw [UInt8.lt_iff_toNat_lt] at hb
      have hb : b.toNat < 128 := hb
      have hchar : (Char.ofNat b.toNat).toNat = b.toNat := by
        rw [toNat_ofNat, if_pos (.inl (by omega))]
      cases cs with
      | nil => simp
      | cons c cs =>
        have hc := hcs c List.mem_cons_self
        rw [List.singleton_append, List.map_cons, Piece.read_scalar, List.cons.injEq,
          ih fun c' hc' => hcs c' (List.mem_cons_of_mem c hc'), List.flatMap_cons,
          utf8EncodeChar_of_isPlain hc, List.singleton_append, List.cons.injEq]
        refine and_congr_left fun _ => ⟨?_, ?_⟩
        · rintro rfl
          rw [hchar, UInt8.ofNat_toNat]
        · rintro rfl
          have hlt := (isPlain_iff.mp hc).2
          apply Char.toNat_inj.mp
          rw [hchar]
          simp
          omega
    · next hb =>
      -- an octet beyond ASCII is read as no character of ASCII, and is part of none
      have hbeyond : ∃ p ∈ (openWith b).1 ++ scan (openWith b).2 rest, isPlain p.read = false := by
        unfold openWith
        rw [if_neg hb]
        split
        · exact ⟨.invalid 1, by simp, isPlain_ofNat (n := 0xFFFD) (by decide)⟩
        · next l hl => exact not_plain_scan (beyond_of_lead? hl) rest
      simp only [openWith, if_neg hb] at hbeyond
      obtain ⟨p, hp, hplain⟩ := hbeyond
      constructor
      · rintro rfl
        rw [hcs _ (List.mem_map_of_mem hp)] at hplain
        cases hplain
      · intro h
        cases cs with
        | nil => cases h
        | cons c cs =>
          have hc := hcs c List.mem_cons_self
          rw [List.flatMap_cons, utf8EncodeChar_of_isPlain hc, List.singleton_append,
            List.cons.injEq] at h
          have hlt := (isPlain_iff.mp hc).2
          refine absurd ?_ hb
          rw [h.1, UInt8.lt_iff_toNat_lt]
          simp
          omega

theorem lossy_eq_iff {f : String} (hf : ∀ c ∈ f.toList, isPlain c = true) {bs : Bytes} :
    lossy bs = f ↔ bs = encode f := by
  rw [lossy_eq, encode, ← scan_eq_iff hf, ← String.toList_inj, String.toList_ofList, pieces]

end BuildComposition.Utf8
