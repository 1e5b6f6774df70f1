/-!
# Reading bytes as text

Two ways to read bytes as UTF-8.  `decode?` refuses bytes that are not
well-formed.  `decodeLossy` reads every byte string: each longest start of a
character that is broken off becomes one replacement character.
-/

namespace ShellAnalysis.Utf8

/-- The text these bytes spell, if they are well-formed UTF-8. -/
def decode? (bytes : List UInt8) : Option String :=
  String.fromUTF8? ⟨bytes.toArray⟩

/-- Stands for bytes that spell no character. -/
def replacement : Char := '\ufffd'

/-- Bytes that go on with a character. -/
def isContinuation (b : UInt8) : Bool := 0x80 ≤ b && b ≤ 0xbf

/-- The second bytes that may follow the first byte `b` of a three- or four-byte character: they
leave out overlong forms, surrogates and what lies above the last code point. -/
def isSecond (b second : UInt8) : Bool :=
  let lo : UInt8 := if b == 0xe0 then 0xa0 else if b == 0xf0 then 0x90 else 0x80
  let hi : UInt8 := if b == 0xed then 0x9f else if b == 0xf4 then 0x8f else 0xbf
  lo ≤ second && second ≤ hi

/-- The value bits of a continuation byte. -/
def low (b : UInt8) : Nat := b.toNat % 64

/-- The character that starts with `b`, and how many of the bytes after `b` belong to it or to
the broken start that it replaces. -/
def first (b : UInt8) (rest : List UInt8) : Char × Nat :=
  if b < 0x80 then (Char.ofNat b.toNat, 0)
  else if 0xc2 ≤ b && b ≤ 0xdf then
    match rest with
    | c :: _ =>
      if isContinuation c then (Char.ofNat (b.toNat % 32 * 64 + low c), 1) else (replacement, 0)
    | [] => (replacement, 0)
  else if 0xe0 ≤ b && b ≤ 0xef then
    match rest with
    | c :: d :: _ =>
      if !isSecond b c then (replacement, 0)
      else if !isContinuation d then (replacement, 1)
      else (Char.ofNat ((b.toNat % 16 * 64 + low c) * 64 + low d), 2)
    | [c] => if isSecond b c then (replacement, 1) else (replacement, 0)
    | [] => (replacement, 0)
  else if 0xf0 ≤ b && b ≤ 0xf4 then
    match rest with
    | c :: d :: e :: _ =>
      if !isSecond b c then (replacement, 0)
      else if !isContinuation d then (replacement, 1)
      else if !isContinuation e then (replacement, 2)
      else (Char.ofNat (((b.toNat % 8 * 64 + low c) * 64 + low d) * 64 + low e), 3)
    | [c, d] =>
      if !isSecond b c then (replacement, 0)
      else if !isContinuation d then (replacement, 1)
      else (replacement, 2)
    | [c] => if isSecond b c then (replacement, 1) else (replacement, 0)
    | [] => (replacement, 0)
  else (replacement, 0)

/-- The characters of the bytes, broken ones replaced. -/
def lossyChars : List UInt8 → List Char
  | [] => []
  | b :: rest =>
    let (c, n) := first b rest
    c :: lossyChars (rest.drop n)
termination_by bytes => bytes.length
decreasing_by simp only [List.length_drop, List.length_cons]; omega

/-- The text of the bytes, broken characters replaced. -/
def decodeLossy (bytes : List UInt8) : String := String.ofList (lossyChars bytes)

/-- The bytes of a text. -/
def encode (text : String) : List UInt8 := text.toUTF8.toList

end ShellAnalysis.Utf8
