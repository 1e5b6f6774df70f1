import ShellAnalysis.Diagnostic.Cause
import ShellAnalysis.Text.Span

/-!
# Diagnostics

A diagnostic is a span, a severity, a stable code and a message.  They are
collected in the order in which they are found and handed out in the order of
their starts (`inSourceOrder`), equal starts in the order of finding.
-/

namespace ShellAnalysis

inductive Severity where
  | error
  | warning
  | info
  | hint
  deriving Repr, DecidableEq, Inhabited

/-- The number an editor uses for the severity. -/
def Severity.level : Severity → Nat
  | error => 1
  | warning => 2
  | info => 3
  | hint => 4

structure Diagnostic where
  span : Span
  severity : Severity
  code : String
  message : String
  deriving Repr, DecidableEq, Inhabited

namespace Diagnostic

/-! ## The kinds of diagnostics a parse makes -/

/-- Input that does not fit the grammar. -/
def syntaxError (message : String) (span : Span) : Diagnostic :=
  ⟨span, .error, "E0001", message⟩

/-- One thing was found where another was expected. -/
def unexpected (found expected : String) (span : Span) : Diagnostic :=
  syntaxError ("unexpected `" ++ found ++ "`, expected " ++ expected) span

/-- A literal that was not closed, or a delimiter over its limit. -/
def lexical (error : LexicalError) (span : Span) : Diagnostic :=
  let code := match error with
    | .delimiterTooLong .. => "E0003"
    | _ => "E0002"
  ⟨span, .error, code, error.message⟩

/-- A limit that was exceeded. -/
def limit (error : LimitError) (span : Span) : Diagnostic :=
  ⟨span, .error, "E0004", error.message⟩

/-- The parser itself failed. -/
def fault (span : Span) : Diagnostic :=
  ⟨span, .error, "E0005", "internal parser error"⟩

/-- A heredoc body inside a statement that has no command list to hold it. -/
def detachedHeredoc (span : Span) : Diagnostic :=
  ⟨span, .warning, "W0001", "heredoc body is not attached to any command"⟩

/-! ## Use -/

def isError (d : Diagnostic) : Bool := d.severity == .error

/-- One line for people: code, span and message. -/
def display (d : Diagnostic) : String :=
  s!"{d.code}[{d.span.start}..{d.span.stop}]: {d.message}"

/-- Is there an error among them? -/
def anyError (ds : List Diagnostic) : Bool := ds.any isError

/-- Sorted by start; those with equal starts keep their order. -/
def inSourceOrder (ds : List Diagnostic) : List Diagnostic :=
  ds.mergeSort fun a b => a.span.start ≤ b.span.start

end Diagnostic

end ShellAnalysis
