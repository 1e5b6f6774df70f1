import ShellAnalysis.Diagnostic.Cause
import ShellAnalysis.Scanner.Content
import ShellAnalysis.Scanner.Heredoc
import ShellAnalysis.Text.Span

/-!
# Scanning by kind

The pieces of a script whose ends need more than a fixed look-ahead.  The
caller says which kinds it accepts at an offset; `scan` gives a piece of one of
them or none.  The state between two scans is the heredoc being read: while it
is active, its body goes before everything else.

A piece that is not closed comes back as far as it goes, with an error.
-/

namespace ShellAnalysis

inductive ScanKind where
  /-- The delimiter after `<<`. -/
  | heredocStart
  /-- The lines before the terminator line. -/
  | heredocBody
  /-- The terminator line. -/
  | heredocEnd
  /-- Content of a string with single quotes at its ends. -/
  | string (style : QuoteStyle)
  /-- Content of a string with triple quotes at its ends. -/
  | multiline (style : QuoteStyle)
  /-- Content of a regex between slashes. -/
  | regex
  deriving Repr, DecidableEq, Inhabited

structure Scanned where
  kind : ScanKind
  /-- The delimiter of a heredoc's start or end, the body without the tabs that are taken off,
  or the content as it stands. -/
  text : String
  span : Span
  error : Option LexicalError
  deriving Repr, DecidableEq

namespace Scanner

open Text (size)

/-- Content from `start` to `stop`: nothing if it is empty, an error if it runs to the end. -/
def content? (text : String) (kind : ScanKind) (unclosed : LexicalError) (start stop : Nat) :
    Checked (Option Scanned) :=
  if stop = start then some none
  else do
    let content ← Text.slice? text start stop
    let span ← Span.between? start stop
    return some ⟨kind, content, span, if size text ≤ stop then some unclosed else none⟩

def string? (text : String) (style : QuoteStyle) (i : Nat) : Checked (Option Scanned) :=
  ((Content.stringReader text style false).stop? i).bind
    (content? text (.string style) .unterminatedString i)

def multiline? (text : String) (style : QuoteStyle) (i : Nat) : Checked (Option Scanned) :=
  ((Content.stringReader text style true).stop? i).bind
    (content? text (.multiline style) .unterminatedMultilineString i)

def regex? (text : String) (i : Nat) : Checked (Option Scanned) :=
  ((Content.regexReader text).stop? i).bind (content? text .regex .unterminatedRegex i)

/-- Reads a delimiter.  One within the limit makes its heredoc the active one; one over the limit
is reported and leaves the state alone. -/
def heredocStart? (text : String) (i : Nat) (h : Heredoc) : Checked (Option Scanned × Heredoc) := do
  match ← Heredoc.opening? text i with
  | none => return (none, h)
  | some o =>
    let span ← Span.between? i o.stop
    if Heredoc.maxDelimiter < size o.delimiter then
      return (some ⟨.heredocStart, o.delimiter, span,
        some (.delimiterTooLong (size o.delimiter) Heredoc.maxDelimiter)⟩, h)
    else return (some ⟨.heredocStart, o.delimiter, span, none⟩, .ofOpening o)

/-- The next piece of the active heredoc, whose body starts at the offset: the lines before its
terminator, or the terminator if no line stands before it. -/
def nextPiece (h : Heredoc) (body : Heredoc.Body) : Option Scanned × Heredoc :=
  match body.terminator with
  | some line =>
    if body.span.isEmpty then
      (some ⟨.heredocEnd, h.delimiter, line, none⟩, { h with active := false })
    else (some ⟨.heredocBody, body.text, body.span, none⟩, h)
  | none =>
    let done := { h with active := false }
    if body.span.isEmpty then (none, done)
    else (some ⟨.heredocBody, body.text, body.span, some (.unterminatedHeredoc h.delimiter)⟩, done)

/-- Reads the next piece of the active heredoc. -/
def heredocPiece? (text : String) (i : Nat) (h : Heredoc) : Checked (Option Scanned × Heredoc) :=
  (h.body? text i).map (nextPiece h)

/-- Tries one kind. -/
def scanKind? (text : String) (i : Nat) (h : Heredoc) :
    ScanKind → Checked (Option Scanned × Heredoc)
  | .heredocStart => heredocStart? text i h
  | .string style => (string? text style i).map (·, h)
  | .multiline style => (multiline? text style i).map (·, h)
  | .regex => (regex? text i).map (·, h)
  | .heredocBody | .heredocEnd => some (none, h)

/-- Tries the accepted kinds in order. -/
def scanKinds? (text : String) (i : Nat) (h : Heredoc) :
    List ScanKind → Checked (Option Scanned × Heredoc)
  | [] => some (none, h)
  | kind :: kinds => do
    match ← scanKind? text i h kind with
    | (some piece, h) => return (some piece, h)
    | (none, h) => scanKinds? text i h kinds

/-- Do the accepted kinds ask for the body of a heredoc? -/
def wantsBody (accepted : List ScanKind) : Bool :=
  accepted.any fun k => k == .heredocBody || k == .heredocEnd

/-- The piece at an offset, and the state after it.  None if the offset is inside a character. -/
def scan? (text : String) (i : Nat) (accepted : List ScanKind) (h : Heredoc) :
    Checked (Option Scanned × Heredoc) :=
  if size text < i then some (none, h)
  else if h.active && wantsBody accepted then heredocPiece? text i h
  else scanKinds? text i h accepted

/-- The piece at an offset, and the state after it.  Inside a character nothing is found. -/
def scan (text : String) (i : Nat) (accepted : List ScanKind) (h : Heredoc) :
    Option Scanned × Heredoc :=
  (scan? text i accepted h).getD (none, h)

/-- Goes back to the body of a heredoc whose start was read before. -/
def resume (h : Heredoc) : Heredoc := { h with active := true }

end Scanner

end ShellAnalysis
