/-!
# UTF-8

Byte strings and the text they hold.  Reading scans the octets once and cuts them into *pieces*:
a scalar value, a sequence that no text contains, or a sequence that the end of the input cuts
short.  A malformed sequence ends at the first octet that cannot continue it, so every octet
belongs to exactly one piece.

## Main definitions

* `Utf8.encode`: the octets of a text
* `Utf8.pieces`: the pieces of a byte string
* `Utf8.decode?`, `Utf8.lossy`: strict reading, and reading with U+FFFD for each malformed piece
* `Utf8.fault?`: the first malformed piece and where it begins
-/

namespace BuildComposition

/-- A byte string: the contents of a file, or a string of the descriptor language. -/
abbrev Bytes := List UInt8

namespace Utf8

/-- The octets of a text. -/
def encode (s : String) : Bytes :=
  s.toList.flatMap String.utf8EncodeChar

@[simp] theorem encode_empty : encode "" = [] := rfl

/-- What a lead octet announces: the number of octets that follow it, the range of the first of
them, and the bits that the lead itself contributes. -/
structure Lead where
  following : Nat
  low : UInt8
  high : UInt8
  bits : Nat

/-- The lead octets of the sequences of two, three and four octets.  The narrowed ranges exclude
overlong forms, surrogates and values beyond U+10FFFF. -/
def lead? (b : UInt8) : Option Lead :=
  if b < 0xC2 then none
  else if b < 0xE0 then some ⟨1, 0x80, 0xBF, b.toNat - 0xC0⟩
  else if b = 0xE0 then some ⟨2, 0xA0, 0xBF, 0x0⟩
  else if b = 0xED then some ⟨2, 0x80, 0x9F, 0xD⟩
  else if b < 0xF0 then some ⟨2, 0x80, 0xBF, b.toNat - 0xE0⟩
  else if b = 0xF0 then some ⟨3, 0x90, 0xBF, 0x0⟩
  else if b < 0xF4 then some ⟨3, 0x80, 0xBF, b.toNat - 0xF0⟩
  else if b = 0xF4 then some ⟨3, 0x80, 0x8F, 0x4⟩
  else none

/-- A piece of a byte string. -/
inductive Piece where
  /-- A scalar value. -/
  | scalar (c : Char)
  /-- So many octets that begin no character. -/
  | invalid (count : Nat)
  /-- So many octets of a character that the end of the input cuts short. -/
  | incomplete (count : Nat)
  deriving DecidableEq, Repr

/-- The number of octets of a piece. -/
def Piece.size : Piece → Nat
  | .scalar c => c.utf8Size
  | .invalid n => n
  | .incomplete n => n

/-- The scalar value of a well-formed piece. -/
def Piece.scalar? : Piece → Option Char
  | .scalar c => some c
  | _ => none

/-- A character of which `seen` octets were read and `owed` octets are missing. -/
structure Pending where
  owed : Nat
  low : UInt8
  high : UInt8
  bits : Nat
  seen : Nat

/-- An octet read between two characters. -/
def openWith (b : UInt8) : List Piece × Option Pending :=
  if b < 0x80 then ([.scalar (Char.ofNat b.toNat)], none)
  else
    match lead? b with
    | none => ([.invalid 1], none)
    | some l => ([], some ⟨l.following, l.low, l.high, l.bits, 1⟩)

/-- One octet: the pieces that it completes and the character it leaves unfinished. -/
def step : Option Pending → UInt8 → List Piece × Option Pending
  | none, b => openWith b
  | some p, b =>
    if p.low ≤ b ∧ b ≤ p.high then
      let bits := p.bits * 64 + (b.toNat - 0x80)
      if p.owed ≤ 1 then ([.scalar (Char.ofNat bits)], none)
      else ([], some ⟨p.owed - 1, 0x80, 0xBF, bits, p.seen + 1⟩)
    else
      let (ps, q) := openWith b
      (.invalid p.seen :: ps, q)

/-- The pieces of the octets that follow an unfinished character. -/
def scan : Option Pending → Bytes → List Piece
  | none, [] => []
  | some p, [] => [.incomplete p.seen]
  | q, b :: rest => (step q b).1 ++ scan (step q b).2 rest

/-- The pieces of a byte string, in order. -/
def pieces (bs : Bytes) : List Piece := scan none bs

/-- The text of a byte string, or nothing when some piece is malformed. -/
def decode? (bs : Bytes) : Option String :=
  ((pieces bs).mapM Piece.scalar?).map String.ofList

/-- The text of a byte string with U+FFFD for each malformed piece. -/
def lossy (bs : Bytes) : String :=
  String.ofList <| (pieces bs).map fun p => p.scalar?.getD (Char.ofNat 0xFFFD)

/-- Why a byte string is not text. -/
inductive Fault where
  /-- `count` octets at `index` begin no character. -/
  | invalid (count index : Nat)
  /-- The character that begins at `index` is cut short. -/
  | incomplete (index : Nat)
  deriving DecidableEq, Repr

/-- The first malformed piece, where `index` octets precede the list. -/
def firstFault : Nat → List Piece → Option Fault
  | _, [] => none
  | index, p :: rest =>
    match p with
    | .scalar c => firstFault (index + c.utf8Size) rest
    | .invalid n => some (.invalid n index)
    | .incomplete _ => some (.incomplete index)

/-- Where and how a byte string first fails to be text. -/
def fault? (bs : Bytes) : Option Fault := firstFault 0 (pieces bs)

/-- The wording of a fault. -/
def Fault.message : Fault → String
  | .invalid n i => s!"invalid utf-8 sequence of {n} bytes from index {i}"
  | .incomplete i => s!"incomplete utf-8 byte sequence from index {i}"

/-- A byte string has no fault exactly when all its pieces are scalar values. -/
theorem firstFault_eq_none_iff (ps : List Piece) (index : Nat) :
    firstFault index ps = none ↔ ∃ cs : List Char, ps = cs.map Piece.scalar := by
  induction ps generalizing index with
  | nil => simp [firstFault]
  | cons p rest ih =>
    cases p with
    | scalar c =>
      rw [firstFault, ih]
      constructor
      · rintro ⟨cs, rfl⟩
        exact ⟨c :: cs, rfl⟩
      · rintro ⟨cs, h⟩
        cases cs with
        | nil => simp at h
        | cons d ds =>
          simp only [List.map_cons, List.cons.injEq] at h
          exact ⟨ds, h.2⟩
    | invalid n =>
      simp only [firstFault, reduceCtorEq, false_iff, not_exists]
      intro cs h
      cases cs <;> simp at h
    | incomplete n =>
      simp only [firstFault, reduceCtorEq, false_iff, not_exists]
      intro cs h
      cases cs <;> simp at h

end Utf8

end BuildComposition
