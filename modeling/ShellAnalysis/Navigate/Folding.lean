import ShellAnalysis.Text.Blank
import ShellAnalysis.Text.LineIndex
import ShellAnalysis.Tree.Node

/-!
# Folding

The regions of a text that an editor can fold: constructs over several lines,
and runs of at least two comment lines.  At most one region starts on a line,
the one that reaches furthest.
-/

namespace ShellAnalysis

/-- A region that can be folded. -/
structure FoldingRange where
  lines : LineSpan
  isComment : Bool
  deriving Repr, DecidableEq

namespace Folding

/-- Constructs that fold. -/
def folds (node : Node) : Bool :=
  match node.form with
  | .block _ | .subshell _ | .commandSub .. | .list _ | .dict _ | .argList .. | .stringLit ..
  | .heredocBody .. | .caseOf .. => true
  | _ => false

/-- The constructs of a tree that fold and take several lines. -/
def regions (root : Node) (index : LineIndex) : List FoldingRange :=
  ((root.walk.filter folds).map fun node => index.lineSpan node.span).filterMap fun lines =>
    if lines.isMultiline then some ⟨lines, false⟩ else none

/-! ## Comments -/

/-- A line without its end: the carriage return before a line feed does not belong to it. -/
def withoutReturn (line : String) : String :=
  if Text.hasByte line (Text.size line - 1) 0x0d then Text.slice line 0 (Text.size line - 1)
  else line

/-- The lines of a text without their ends.  Nothing after the last line feed is no line. -/
def linesOf (text : String) : List String :=
  let pieces := (text.split '\n').toList.map String.Slice.copy
  let last := pieces.getLast?.getD ""
  pieces.dropLast.map withoutReturn ++ (if last.isEmpty then [] else [last])

/-- Lines that hold a comment and nothing else; the line of an interpreter is none. -/
def isCommentLine (line : String) : Bool :=
  match line.toList.dropWhile Text.isBlank with
  | '#' :: '!' :: _ => false
  | '#' :: _ => true
  | _ => false

/-- A run of comment lines: its first and last line, and the length of the last. -/
structure Run where
  first : Nat
  last : Nat
  width : Nat

/-- The runs of comment lines from the line with this number on; `open?` is the run that the line
before them belongs to. -/
def runs (number : Nat) (open? : Option Run) : List String → List Run
  | [] => open?.toList
  | line :: rest =>
    if isCommentLine line then
      let first := (open?.map (·.first)).getD number
      runs (number + 1) (some ⟨first, number, Text.size line⟩) rest
    else open?.toList ++ runs (number + 1) none rest

/-- The runs of at least two comment lines. -/
def comments (text : String) : List FoldingRange :=
  (runs 0 none (linesOf text)).filterMap fun run =>
    if run.first < run.last then some ⟨⟨⟨run.first, 0⟩, ⟨run.last, run.width⟩⟩, true⟩ else none

/-! ## Choice -/

/-- Earlier first lines first, and of those on one line the later last lines. -/
def before (a b : FoldingRange) : Bool :=
  a.lines.start.line < b.lines.start.line
    || (a.lines.start.line == b.lines.start.line && b.lines.stop.line ≤ a.lines.stop.line)

/-- The first of every run of neighbours that start on one line. -/
def firstPerLine : List FoldingRange → List FoldingRange
  | [] => []
  | [range] => [range]
  | a :: b :: rest =>
    if a.lines.start.line = b.lines.start.line then firstPerLine (a :: rest)
    else a :: firstPerLine (b :: rest)

end Folding

/-- The regions of a text that can be folded, by their first lines. -/
def foldingRanges (root : Node) (text : String) (index : LineIndex) : List FoldingRange :=
  Folding.firstPerLine
    ((Folding.regions root index ++ Folding.comments text).mergeSort Folding.before)

end ShellAnalysis
