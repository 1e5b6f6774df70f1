import ShellAnalysis.Text.Bytes
import ShellAnalysis.Text.Span

/-!
# Lines and columns

A position is a line and a column in bytes, both counted from zero and shown
counted from one.  A `LineIndex` keeps the offset at which each line starts and
converts between offsets and positions.
-/

namespace ShellAnalysis

/-- A place in a text as line and column. -/
structure Position where
  line : Nat
  column : Nat
  deriving Repr, DecidableEq, Inhabited

/-- The form shown to people: `line:column`, both counted from one. -/
def Position.display (p : Position) : String :=
  s!"{p.line + 1}:{p.column + 1}"

/-- The positions of both ends of a span. -/
structure LineSpan where
  start : Position
  stop : Position
  deriving Repr, DecidableEq, Inhabited

/-- Does the span end on a later line than it starts on? -/
def LineSpan.isMultiline (r : LineSpan) : Bool := r.stop.line > r.start.line

/-- Where the lines of a text start, and how long the text is. -/
structure LineIndex where
  starts : Array Nat
  size : Nat
  deriving Repr, DecidableEq, Inhabited

namespace LineIndex

/-- The offsets right after the line feeds at or after `i`, added to those found so far. -/
def collectStarts (text : String) (i : Nat) (found : Array Nat) : Array Nat :=
  match h : Text.byte? text i with
  | some b => collectStarts text (i + 1) (if b == 0x0a then found.push (i + 1) else found)
  | none => found
termination_by Text.size text - i
decreasing_by
  have := Text.lt_size_of_byte? h
  omega

/-- The first line starts at offset 0, every other one right after a line feed. -/
def ofText (text : String) : LineIndex :=
  ⟨collectStarts text 0 #[0], Text.size text⟩

/-- Number of lines. -/
def lineCount (index : LineIndex) : Nat := index.starts.size

/-- How many entries of the sorted array are at most `i`, by halving `lo .. hi`. -/
def countUpTo (starts : Array Nat) (i : Nat) (lo hi : Nat) : Nat :=
  if lo < hi then
    let mid := (lo + hi) / 2
    if starts.getD mid 0 ≤ i then countUpTo starts i (mid + 1) hi
    else countUpTo starts i lo mid
  else lo
termination_by hi - lo

/-- The position of an offset; an offset past the end has the position of the end. -/
def position (index : LineIndex) (offset : Nat) : Position :=
  let offset := min offset index.size
  let line := countUpTo index.starts offset 0 index.starts.size - 1
  ⟨line, offset - index.starts.getD line 0⟩

/-- The positions of both ends of a span. -/
def lineSpan (index : LineIndex) (span : Span) : LineSpan :=
  ⟨index.position span.start, index.position span.stop⟩

/-- What a position stands for in a text. -/
inductive Target where
  /-- An offset in the text or right after it. -/
  | offset (i : Nat)
  /-- Nothing: there is no such line, or the text ends before the position. -/
  | absent
  /-- No number of 32 bits: the line exists, but adding the column to its start overflows. -/
  | overflow
  deriving Repr, DecidableEq

/-- Offsets, lines and columns are numbers below this one. -/
def offsetLimit : Nat := UInt32.size

/-- What lies `column` bytes after the start of the line.  The column may reach into later lines. -/
def target (index : LineIndex) (p : Position) : Target :=
  match index.starts[p.line]? with
  | none => .absent
  | some start =>
    let offset := start + p.column
    if offsetLimit ≤ offset then .overflow
    else if offset ≤ index.size then .offset offset
    else .absent

/-- The offset of a position, if there is one. -/
def offset? (index : LineIndex) (p : Position) : Option Nat :=
  match index.target p with
  | .offset i => some i
  | _ => none

end LineIndex

end ShellAnalysis
