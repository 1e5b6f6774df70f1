import ShellAnalysis.Text.Bytes
import ShellAnalysis.Text.Span
import ShellAnalysis.Token.Kind

/-!
# Reading one token

`tokenAt text i` is the first token at or after the offset `i`.  Blanks and
line continuations before it are skipped; the token then is the longest piece
of one of the kinds, and one unknown character if there is none.  Reading
never fails and never stands still: only the end of the text is empty.

`tokenize` reads a whole text, comments included.
-/

namespace ShellAnalysis

/-- A kind and the bytes it was read from. -/
structure Token where
  kind : TokenKind
  span : Span
  deriving Repr, DecidableEq, Inhabited

namespace Token

/-- The token's piece of the text. -/
def text (source : String) (t : Token) : String :=
  Text.slice source t.span.start t.span.stop

/-- Is it a name spelled like this? -/
def isWord (source : String) (t : Token) (word : String) : Bool :=
  t.kind == .ident && t.text source == word

end Token

namespace Lexer

open Text (byte? hasByte size)

/-! ## Blanks -/

/-- Space, tab, carriage return and form feed. -/
def isBlank (b : UInt8) : Bool :=
  b == 0x20 || b == 0x09 || b == 0x0d || b == 0x0c

/-- How many bytes a blank or a line continuation takes at the offset; 0 if neither stands there.
A continuation is a backslash before a line end. -/
def blankWidth (text : String) (i : Nat) : Nat :=
  match byte? text i with
  | none => 0
  | some b =>
    if isBlank b then 1
    else if b == 0x5c then
      if hasByte text (i + 1) 0x0a then 2
      else if hasByte text (i + 1) 0x0d && hasByte text (i + 2) 0x0a then 3
      else 0
    else 0

/-- The first offset at or after `i` that is neither blank nor in a line continuation. -/
def skipBlanks (text : String) (i : Nat) : Nat :=
  if i < size text then
    let width := blankWidth text i
    if 0 < width then skipBlanks text (i + width) else i
  else i
termination_by size text - i

/-! ## Families of tokens

Each function gives the kind and the end of the token of its family at `i`. -/

/-- The longest token of fixed spelling. -/
def spelled? (text : String) (i : Nat) : Option (TokenKind × Nat) :=
  match byte? text i with
  | some b =>
    ((TokenKind.spellings b).find? fun s => Text.hasPiece text i s.1).map fun s =>
      (s.2, i + size s.1)
  | none => none

/-- One character that belongs to no kind. -/
def unknown (text : String) (i : Nat) : TokenKind × Nat :=
  (.unknown, i + ((byte? text i).map Text.charWidth).getD 1)

/-- A token of fixed spelling, or else an unknown character. -/
def punctuation (text : String) (i : Nat) : TokenKind × Nat :=
  (spelled? text i).getD (unknown text i)

/-- A name, unless it is the `r` of a raw quote. -/
def word (text : String) (i : Nat) : TokenKind × Nat :=
  (spelled? text i).getD (.ident, Text.runEnd text Text.isNameByte i)

/-- Digits and the underscores between or after them. -/
def digitsEnd (text : String) (i : Nat) : Nat :=
  Text.runEnd text (fun b => Text.isDigit b || b == 0x5f) i

/-- Is there a digit at the offset? -/
def digitAt (text : String) (i : Nat) : Bool :=
  ((byte? text i).map Text.isDigit).getD false

/-- The end of an exponent that starts at `i`; `i` itself if there is no whole one. -/
def exponentEnd (text : String) (i : Nat) : Nat :=
  if hasByte text i 0x65 || hasByte text i 0x45 then
    let j := if hasByte text (i + 1) 0x2b || hasByte text (i + 1) 0x2d then i + 2 else i + 1
    if digitAt text j then Text.runEnd text Text.isDigit j else i
  else i

/-- An integer, or a float if a point and a digit follow. -/
def number (text : String) (i : Nat) : TokenKind × Nat :=
  let whole := digitsEnd text i
  if hasByte text whole 0x2e && digitAt text (whole + 1) then
    (.float, exponentEnd text (digitsEnd text (whole + 1)))
  else (.int, whole)

/-- Is there a letter or an underscore at the offset? -/
def nameAt (text : String) (i : Nat) : Bool :=
  ((byte? text i).map Text.isNameStart).getD false

/-- Bytes that name a special parameter after `$`. -/
def isSpecial (b : UInt8) : Bool :=
  Text.isDigit b || b == 0x40 || b == 0x23 || b == 0x3f || b == 0x24 || b == 0x21 || b == 0x2a
    || b == 0x2d

/-- `$name`, a special parameter, or `$` and an opener. -/
def dollar (text : String) (i : Nat) : TokenKind × Nat :=
  if nameAt text (i + 1) then (.simpleVar, Text.runEnd text Text.isNameByte (i + 1))
  else if ((byte? text (i + 1)).map isSpecial).getD false then (.specialVar, i + 2)
  else punctuation text i

/-- `@name`, or `@` alone or before a parenthesis. -/
def atSign (text : String) (i : Nat) : TokenKind × Nat :=
  if nameAt text (i + 1) then (.splice, Text.runEnd text Text.isNameByte (i + 1))
  else punctuation text i

/-- Backslash and the character after it; alone at a line end or at the end of the text. -/
def backslash (text : String) (i : Nat) : TokenKind × Nat :=
  match byte? text (i + 1) with
  | some b =>
    if b == 0x0a || b == 0x0d then (.unknown, i + 1) else (.escaped, i + 1 + Text.charWidth b)
  | none => (.unknown, i + 1)

/-- Bytes after which a `#` opens a comment. -/
def opensWord (b : UInt8) : Bool :=
  b == 0x20 || b == 0x09 || b == 0x0a || b == 0x0d || b == 0x3b || b == 0x7c || b == 0x26
    || b == 0x28 || b == 0x29 || b == 0x7b || b == 0x7d

/-- Does a word start at the offset? -/
def startsWord (text : String) (i : Nat) : Bool :=
  i == 0 || ((byte? text (i - 1)).map opensWord).getD true

/-- A comment to the end of the line at the start of a word, else a lone `#`. -/
def hash (text : String) (i : Nat) : TokenKind × Nat :=
  if startsWord text i then (.comment, Text.find text 0x0a i) else (.hash, i + 1)

/-! ## Whole tokens -/

/-- The kind and end of the token whose first byte `b` stands at `i`. -/
def munch (text : String) (i : Nat) (b : UInt8) : TokenKind × Nat :=
  if Text.isNameStart b then word text i
  else if Text.isDigit b then number text i
  else if 0x80 ≤ b then (.nonAscii, Text.runEnd text (0x80 ≤ ·) i)
  else if b == 0x24 then dollar text i
  else if b == 0x40 then atSign text i
  else if b == 0x23 then hash text i
  else if b == 0x5c then backslash text i
  else punctuation text i

/-- The first token at or after the offset, which is first moved up to a character boundary. -/
def tokenAt (text : String) (offset : Nat) : Token :=
  let i := skipBlanks text (Text.ceil text offset)
  match byte? text i with
  | none => ⟨.eof, .empty (size text)⟩
  | some b =>
    let (kind, stop) := munch text i b
    ⟨kind, .upTo i stop⟩

/-- The tokens from an offset on, at most `fuel` of them. -/
def tokensFrom (text : String) : (fuel : Nat) → (offset : Nat) → List Token
  | 0, _ => []
  | fuel + 1, offset =>
    let t := tokenAt text offset
    if t.kind = .eof then [] else t :: tokensFrom text fuel t.span.stop

/-- All tokens of a text.  Each takes at least one byte, so there are no more than bytes. -/
def tokenize (text : String) : List Token := tokensFrom text (size text) 0

end Lexer

end ShellAnalysis
