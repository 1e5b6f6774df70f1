import ShellAnalysis.Text.Bytes
import ShellAnalysis.Text.Span
import ShellAnalysis.Text.Utf8

/-!
# Heredocs

`opening?` reads the delimiter after `<<`, `body` reads the lines up to the
terminator line.  A terminator line is the delimiter alone, after leading tabs
if the heredoc strips them.
-/

namespace ShellAnalysis

/-- A heredoc whose delimiter is known, and whether its body is still to be read. -/
structure Heredoc where
  delimiter : String
  /-- `<<-`: leading tabs are taken off the body lines and the terminator line. -/
  stripTabs : Bool
  /-- The delimiter was quoted or escaped, so the body is literal. -/
  quoted : Bool
  /-- The body is yet to come or is being read. -/
  active : Bool
  deriving Repr, DecidableEq, Inhabited

namespace Heredoc

open Text (byte? hasByte size)

/-- No heredoc at all. -/
def idle : Heredoc := ⟨"", false, false, false⟩

/-- The longest delimiter, in bytes. -/
def maxDelimiter : Nat := 256

/-! ## Opening -/

/-- What stands after `<<`. -/
structure Opening where
  delimiter : String
  stripTabs : Bool
  quoted : Bool
  /-- The offset right after the delimiter. -/
  stop : Nat
  deriving Repr, DecidableEq

/-- The heredoc that an opening announces. -/
def ofOpening (o : Opening) : Heredoc := ⟨o.delimiter, o.stripTabs, o.quoted, true⟩

/-- A delimiter of letters, digits and underscores, and its end. -/
def bareDelimiter? (text : String) (i : Nat) : Checked (String × Nat) :=
  let stop := Text.runEnd text Text.isNameByte i
  (Text.slice? text i stop).map (·, stop)

/-- A delimiter up to its closing quote, which must stand on the same line, and the end of the
quote. -/
def quotedDelimiter? (text : String) (quote : UInt8) (i : Nat) : Checked (Option (String × Nat)) :=
  let stop := Text.runEnd text (fun b => b != quote && b != 0x0a) i
  (Text.slice? text i stop).map fun d => if hasByte text stop quote then some (d, stop + 1) else none

/-- The delimiter at `i`, whether it is quoted, and its end. -/
def delimiter? (text : String) (i : Nat) : Checked (Option (String × Bool × Nat)) :=
  match byte? text i with
  | none => some none
  | some b =>
    if b == 0x27 || b == 0x22 then
      (quotedDelimiter? text b (i + 1)).map (·.map fun (d, stop) => (d, true, stop))
    else if b == 0x5c then
      (bareDelimiter? text (i + 1)).map fun (d, stop) => some (d, true, stop)
    else (bareDelimiter? text i).map fun (d, stop) => some (d, false, stop)

/-- Where the delimiter starts: after an optional `-` and blanks. -/
def delimiterStart (text : String) (start : Nat) : Nat :=
  Text.runEnd text (fun b => b == 0x20 || b == 0x09)
    (if hasByte text start 0x2d then start + 1 else start)

/-- Reads an optional `-`, blanks and a delimiter that is not empty. -/
def opening? (text : String) (start : Nat) : Checked (Option Opening) :=
  (delimiter? text (delimiterStart text start)).map fun
    | none => none
    | some (d, quoted, stop) =>
      if d.isEmpty then none else some ⟨d, hasByte text start 0x2d, quoted, stop⟩

/-! ## Body -/

/-- The lines of a body, without the tabs that are taken off. -/
structure Body where
  lines : List String
  /-- Where the lines stand. -/
  span : Span
  /-- The terminator line up to the end of the delimiter, if there is one. -/
  terminator : Option Span
  deriving Repr, DecidableEq

/-- The text of the lines. -/
def Body.text (body : Body) : String := .join body.lines

/-- Where the content of a line starts: after its tabs if they are taken off. -/
def contentStart (text : String) (stripTabs : Bool) (i : Nat) : Nat :=
  if stripTabs then Text.runEnd text (· == 0x09) i else i

/-- The offset after the delimiter, if the line content at `i` is a terminator. -/
def terminator? (text : String) (delimiter : String) (i : Nat) : Option Nat :=
  let stop := i + size delimiter
  let ended := match byte? text stop with
    | none => true
    | some b => b == 0x0a || b == 0x0d
  if Text.hasPiece text i delimiter && ended then some stop else none

/-- The start of the line after the one that `i` lies on, or the end of the text. -/
def nextLine (text : String) (i : Nat) : Nat :=
  let feed := Text.find text 0x0a i
  if feed < size text then feed + 1 else size text

theorem le_runEnd (text : String) (inClass : UInt8 → Bool) (i : Nat) :
    i ≤ Text.runEnd text inClass i := by
  fun_induction Text.runEnd text inClass i with
  | case1 _ _ _ _ ih => exact Nat.le_trans (Nat.le_succ _) ih
  | case2 => exact Nat.le_refl _
  | case3 => exact Nat.le_refl _

theorem le_contentStart (text : String) (stripTabs : Bool) (i : Nat) :
    i ≤ contentStart text stripTabs i := by
  unfold contentStart
  split
  · exact le_runEnd _ _ _
  · exact Nat.le_refl _

theorem lt_nextLine {text : String} {i j : Nat} (hi : i < size text) (hj : i ≤ j) :
    i < nextLine text j := by
  have := le_runEnd text (· != 0x0a) j
  unfold nextLine Text.find
  simp only
  split <;> omega

/-- Reads the lines from the line start `i` on.  The content of each line must start at a character:
it is cut off there before it is compared with the delimiter. -/
def body? (text : String) (h : Heredoc) (i : Nat) : Checked Body :=
  if _hi : i < size text then
    let content := contentStart text h.stripTabs i
    if Text.isBoundary text content then
      match terminator? text h.delimiter content with
      | some stop => (Span.between? i stop).map fun line => ⟨[], .empty i, some line⟩
      | none => do
        let next := nextLine text content
        let line ← Text.slice? text content next
        let rest ← body? text h next
        let span ← Span.between? i rest.span.stop
        return { rest with lines := line :: rest.lines, span }
    else none
  else some ⟨[], .empty i, none⟩
termination_by size text - i
decreasing_by
  have := lt_nextLine _hi (le_contentStart text h.stripTabs i)
  omega

/-! ## Stored form -/

def flag (b : Bool) : UInt8 := if b then 1 else 0

/-- Three flags, the delimiter's length in two bytes, high byte first, and the delimiter, which
is cut off at the longest length. -/
def toBytes (h : Heredoc) : List UInt8 :=
  let bytes := (Utf8.encode h.delimiter).take maxDelimiter
  [flag h.active, flag h.stripTabs, flag h.quoted,
    (bytes.length / 256).toUInt8, (bytes.length % 256).toUInt8] ++ bytes

/-- Reads the stored form back.  A header that is cut off gives no heredoc at all, a delimiter
that is cut off is read as far as it goes. -/
def ofBytes : List UInt8 → Heredoc
  | active :: stripTabs :: quoted :: high :: low :: rest =>
    let length := min (high.toNat * 256 + low.toNat) maxDelimiter
    ⟨Utf8.decodeLossy (rest.take length), stripTabs != 0, quoted != 0, active != 0⟩
  | _ => idle

end Heredoc

end ShellAnalysis
