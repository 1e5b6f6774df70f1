/-!
# Bytes of a text

Offsets into a text count the bytes of its UTF-8 form.  Everything that looks
at a text by offset goes through `byte?`; everything that cuts a piece out of
it goes through `slice?`, which refuses a cut inside a character.

    slice? t a b = some p  only if  a ≤ b and both are character boundaries
-/

namespace ShellAnalysis.Text

/-! ## Access -/

/-- Number of bytes of the text. -/
abbrev size (text : String) : Nat := text.utf8ByteSize

/-- The byte at an offset; none past the end. -/
@[inline]
def byte? (text : String) (i : Nat) : Option UInt8 :=
  if h : i < text.utf8ByteSize then some (text.getUTF8Byte ⟨i⟩ h) else none

/-- Does the text hold this byte at the offset? -/
@[inline]
def hasByte (text : String) (i : Nat) (b : UInt8) : Bool :=
  byte? text i == some b

theorem lt_size_of_byte? {text : String} {i : Nat} {b : UInt8} (h : byte? text i = some b) :
    i < size text := by
  unfold byte? at h
  split at h
  · assumption
  · cases h

/-! ## Character boundaries -/

/-- Offsets at which a character starts, and the end of the text. -/
@[inline]
def isBoundary (text : String) (i : Nat) : Bool :=
  String.Pos.Raw.isValid text ⟨i⟩

/-- The first character boundary at or after the offset; the end of the text if there is none. -/
def ceil (text : String) (i : Nat) : Nat :=
  if i < size text then
    if isBoundary text i then i else ceil text (i + 1)
  else size text
termination_by size text - i

/-- The last character boundary at or before the offset. -/
def floor (text : String) : Nat → Nat
  | 0 => 0
  | i + 1 => if isBoundary text (i + 1) then i + 1 else floor text i

/-- How many bytes the character takes whose first byte is `b`. -/
def charWidth (b : UInt8) : Nat :=
  if b < 0x80 then 1 else if b < 0xe0 then 2 else if b < 0xf0 then 3 else 4

/-! ## Pieces -/

/-- The piece between two offsets; none if they are out of order, out of the text
or inside a character. -/
def slice? (text : String) (a b : Nat) : Option String :=
  if a ≤ b then
    if ha : String.Pos.Raw.IsValid text ⟨a⟩ then
      if hb : String.Pos.Raw.IsValid text ⟨b⟩ then
        some (text.extract (text.pos ⟨a⟩ ha) (text.pos ⟨b⟩ hb))
      else none
    else none
  else none

/-- The piece between two offsets that are known to be boundaries in order. -/
def slice (text : String) (a b : Nat) : String :=
  (slice? text a b).getD ""

/-- Do the first `n` bytes of `piece` stand in the text at the offset? -/
def hasBytes (text : String) (i : Nat) (piece : String) : Nat → Bool
  | 0 => true
  | n + 1 =>
    byte? text (i + n) == byte? piece n && (byte? piece n).isSome && hasBytes text i piece n

/-- Does `piece` stand in the text at the offset, byte for byte? -/
def hasPiece (text : String) (i : Nat) (piece : String) : Bool :=
  hasBytes text i piece (size piece)

/-! ## Classes and runs -/

/-- ASCII digits. -/
def isDigit (b : UInt8) : Bool := 0x30 ≤ b && b ≤ 0x39

/-- ASCII letters and the underscore: what a name may start with. -/
def isNameStart (b : UInt8) : Bool :=
  (0x61 ≤ b && b ≤ 0x7a) || (0x41 ≤ b && b ≤ 0x5a) || b == 0x5f

/-- ASCII letters, digits and the underscore: what a name may go on with. -/
def isNameByte (b : UInt8) : Bool := isNameStart b || isDigit b

/-- The end of the longest run of bytes in the class that starts at the offset. -/
def runEnd (text : String) (inClass : UInt8 → Bool) (i : Nat) : Nat :=
  match h : byte? text i with
  | some b => if inClass b then runEnd text inClass (i + 1) else i
  | none => i
termination_by size text - i
decreasing_by
  have := lt_size_of_byte? h
  omega

/-- The first offset at or after `i` that holds the byte; the end of the text if there is none. -/
def find (text : String) (b : UInt8) (i : Nat) : Nat :=
  runEnd text (· != b) i

end ShellAnalysis.Text
